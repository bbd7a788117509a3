import Chaaya.Effects
import Chaaya.FiniteMap.Builtin
import Chaaya.FiniteMap.Local

/-! The hash-table procedures that the collection libraries call. Their tables come from
`(make-hash-table)` without arguments and so compare keys with `equal?`. -/

namespace Chaaya.HashCollection

open Chaaya.Hashtable Chaaya.Probing Chaaya.FiniteMap Chaaya.Effects

/-- A comparator record; the type test and the ordering are used by no hash collection. -/
structure Comparator where
  equality : Value → Value → Bool
  hash : Value → Nat

def Comparator.keys (cmp : Comparator) : Keys Value := ⟨cmp.equality, cmp.hash⟩

/-- What `make-hash-table` can be given. -/
inductive Arg
  | native (name : String)
  | closure
  | comparator (cmp : Comparator)

def Arg.isProcedure : Arg → Bool
  | comparator _ => false
  | _ => true

/-- The mode and whether there are an `equiv_fn` and a `hash_fn`. -/
def configureHashtable : List Arg → Mode × Bool × Bool
  | [] => (.equal, false, false)
  | arg :: rest =>
    match arg with
    | .native "eq?" => (.eq, false, false)
    | .native "eqv?" => (.eqv, false, false)
    | .native "equal?" => (.equal, false, false)
    | arg =>
      if arg.isProcedure then (.equal, true, (rest.head?.map Arg.isProcedure).getD false)
      else (.equal, false, false)

def primMakeHashTable (args : List Arg) : Except String Table :=
  if args.length > 2 then .error "make-hash-table: too many arguments"
  else if args.length = 1 && !args.all Arg.isProcedure then
    .error "make-hash-table: expected eq?, eqv?, equal?, or procedure"
  else if args.length = 2 && !(args.take 1).all Arg.isProcedure then
    .error "make-hash-table: expected procedure comparator"
  else
    let (mode, equivFn, hashFn) := configureHashtable args
    .ok (makeHashtable 8 mode equivFn hashFn)

variable (b : Builtins)

/-- `hash-table-ref`, with `none` where the key is not found. -/
def hashTableRef (t : Table) (key : Value) : Option Value :=
  (hashtableGet (builtinKeys b t) t key).2

/-- The default given to `hash-table-ref` is a new pair, so no stored value is it. -/
def hashTableExists (t : Table) (key : Value) : Bool := (hashTableRef b t key).isSome

def hashTableSet (who : String) (t : Table) (key value : Value) : Except String Table :=
  match hashtableSet (builtinKeys b t) (fun _ => true) 65 t key value with
  | some (.ok, t) => .ok t
  | _ => .error (who ++ ": out of memory")

def hashTableDelete (t : Table) (key : Value) : Table :=
  (hashtableDelete (builtinKeys b t) t key).2

def hashTableSize (t : Table) : Nat := t.count

/-- The list is built by `ch_gc_cons` in slot order. -/
def hashTableKeys (t : Table) : List Value := (t.contents.map Prod.fst).reverse

/-- The pairs that `hash-table-walk` passes on; they are read before the first call. -/
def snapshotEntries (t : Table) : List (Value × Value) := t.contents

def hashTableCopy (t : Table) : Except String Table :=
  t.contents.foldlM (fun dst e => hashTableSet b "hash-table-copy" dst e.1 e.2)
    (makeHashtable (if t.cap = 0 then 8 else t.cap) t.mode t.equivFn t.hashFn)

/-- `equal?` and the hash that goes with it. -/
def equalKeys : Keys Value := keys b .equal ⟨none, none⟩

/-- Elements on which `same` is an equality, the tables compare by it, and equal ones have
the same hash. -/
structure Elements (E : Value → Prop) (same : Value → Value → Bool) : Prop where
  law : LawfulOn E (equalKeys b)
  real : ∀ {x}, E x → x ≠ .undefined
  agrees : ∀ {x y}, E x → E y → same x y = (equalKeys b).equal x y

/-- A table without procedures of its own that holds elements only. -/
structure Good (E : Value → Prop) (t : Table) : Prop where
  quiet : Quiet t
  mode : t.mode = .equal
  models : ∃ m, ModelsOn E (equalKeys b) t m

def OutOfMemory (message : String) : Prop := ∃ who, message = who ++ ": out of memory"

variable {b} {E : Value → Prop} {same : Value → Value → Bool} {t : Table} {x y key : Value}

namespace Elements

variable (els : Elements b E same)

include els

theorem refl (here : E x) : same x x = true := by
  rw [els.agrees here here]
  exact els.law.refl here

theorem symm (here : E x) (there : E y) (equal : same x y = true) : same y x = true := by
  rw [els.agrees there here]
  rw [els.agrees here there] at equal
  exact els.law.symm here there equal

theorem trans {z : Value} (hx : E x) (hy : E y) (hz : E z) (first : same x y = true)
    (second : same y z = true) : same x z = true := by
  rw [els.agrees hx hz]
  rw [els.agrees hx hy] at first
  rw [els.agrees hy hz] at second
  exact els.law.trans hx hy hz first second

theorem comm (here : E x) (there : E y) : same x y = same y x := by
  rw [Bool.eq_iff_iff]
  exact ⟨els.symm here there, els.symm there here⟩

theorem left {z : Value} (hx : E x) (hy : E y) (hz : E z) (equal : same x y = true) :
    same x z = same y z := by
  rw [Bool.eq_iff_iff]
  exact ⟨els.trans hy hx hz (els.symm hx hy equal), els.trans hx hy hz equal⟩

theorem restrict_same (here : E x) (there : E y) :
    (restrict E (equalKeys b)).equal x y = same x y := by
  rw [restrict_equal here there, els.agrees here there]

end Elements

theorem Good.builtinKeys (good : Good b E t) : FiniteMap.builtinKeys b t = equalKeys b := by
  rw [FiniteMap.builtinKeys, good.mode, equalKeys]

theorem Good.same_mode {t' : Table} {m : Value → Option Value} (good : Good b E t)
    (kept : SameMode t t') (models : ModelsOn E (equalKeys b) t' m) : Good b E t' :=
  ⟨kept.quiet good.quiet, kept.mode.trans good.mode, m, models⟩

theorem hashTableRef_models {m : Value → Option Value} (els : Elements b E same)
    (good : Good b E t) (models : ModelsOn E (equalKeys b) t m) (here : E x) :
    hashTableRef b t x = m x := by
  rw [hashTableRef, good.builtinKeys]
  exact models.get els.law here

theorem makeHashtable_good (capacity : Nat) :
    Good b E (makeHashtable capacity .equal false false) :=
  ⟨⟨rfl, rfl⟩, rfl, fun _ => none, models_make .., fun _ _ => rfl⟩

theorem makeHashtable_ref (els : Elements b E same) (capacity : Nat) (here : E x) :
    hashTableRef b (makeHashtable capacity .equal false false) x = none :=
  hashTableRef_models els (makeHashtable_good capacity)
    ⟨models_make .., fun _ _ => rfl⟩ here

theorem hashTableRef_same (els : Elements b E same) (good : Good b E t) (hx : E x) (hy : E y)
    (equal : same x y = true) : hashTableRef b t x = hashTableRef b t y := by
  obtain ⟨m, models⟩ := good.models
  have lawful := restrict_lawful els.law
  rw [hashTableRef_models els good models hx, hashTableRef_models els good models hy]
  have key : (restrict E (equalKeys b)).equal x y = true := by
    rw [els.restrict_same hx hy]
    exact equal
  apply Option.ext
  intro v
  rw [models.models.denotes x v, models.models.denotes y v]
  constructor
  · rintro ⟨e, mem, found, value⟩
    exact ⟨e, mem, lawful.trans found key, value⟩
  · rintro ⟨e, mem, found, value⟩
    exact ⟨e, mem, lawful.trans found (lawful.symm key), value⟩

/-- `hash-table-set!` gives the key its value, unless memory is short. -/
theorem hashTableSet_spec (els : Elements b E same) (good : Good b E t) (here : E key)
    (who : String) (value : Value) :
    Yields OutOfMemory (hashTableSet b who t key value) fun t' => Good b E t' ∧
      ∀ x, E x → hashTableRef b t' x =
        if same key x then some value else hashTableRef b t x := by
  obtain ⟨m, models⟩ := good.models
  unfold hashTableSet
  rw [good.builtinKeys]
  obtain ⟨t', done, stored⟩ | ⟨failed, _⟩ :=
    models.set els.law here (els.real here) (fun _ => true) value
  · rw [done 64]
    have good' := good.same_mode (hashtableSet_mode (done 64)) stored
    refine ⟨good', fun x inside => ?_⟩
    rw [hashTableRef_models els good' stored inside, hashTableRef_models els good models inside,
      els.restrict_same here inside]
  · rw [failed 64]
    exact ⟨who, rfl⟩

theorem hashTableSet_small (els : Elements b E same) (good : Good b E t) (here : E key)
    (small : t.cap ≤ sizeMax / 2) (who : String) (value : Value) :
    ∃ t', hashTableSet b who t key value = .ok t' := by
  obtain ⟨m, models⟩ := good.models
  unfold hashTableSet
  rw [good.builtinKeys]
  obtain ⟨t', done, _⟩ | ⟨_, huge | ⟨_, missing⟩⟩ :=
    models.set els.law here (els.real here) (fun _ => true) value
  · rw [done 64]
    exact ⟨t', rfl⟩
  · omega
  · exact nomatch missing

theorem hashTableDelete_good (els : Elements b E same) (good : Good b E t) (here : E key) :
    Good b E (hashTableDelete b t key) := by
  obtain ⟨m, models⟩ := good.models
  have kept := hashtableDelete_mode (equalKeys b) t key
  rw [hashTableDelete, good.builtinKeys]
  exact good.same_mode kept (models.delete els.law here)

theorem hashTableDelete_ref (els : Elements b E same) (good : Good b E t) (here : E key)
    (inside : E x) : hashTableRef b (hashTableDelete b t key) x =
      if same key x then none else hashTableRef b t x := by
  have good' := hashTableDelete_good els good here
  obtain ⟨m, models⟩ := good.models
  have deleted : ModelsOn E (equalKeys b) (hashTableDelete b t key) fun k =>
      if (restrict E (equalKeys b)).equal key k then none else m k := by
    rw [hashTableDelete, good.builtinKeys]
    exact models.delete els.law here
  rw [hashTableRef_models els good models inside, ← els.restrict_same here inside]
  exact hashTableRef_models els good' deleted inside

/-- The pairs in a table: which elements they are for, and each for another one. -/
structure Lists (same : Value → Value → Bool) (E : Value → Prop) (entries : List (Value × Value))
    (m : Value → Option Value) : Prop where
  inside : ∀ e ∈ entries, E e.1
  apart : entries.Pairwise fun e f => same e.1 f.1 = false
  finds : ∀ x, E x → ∀ v, m x = some v ↔ ∃ e ∈ entries, same e.1 x = true ∧ e.2 = v

theorem contents_lists (els : Elements b E same) (good : Good b E t) :
    Lists same E t.contents (hashTableRef b t) := by
  obtain ⟨m, models⟩ := good.models
  have within := models.within els.law
  refine ⟨within, models.models.sound.distinct.imp_of_mem fun left right apart => ?_,
    fun x here v => ?_⟩
  · rw [← els.restrict_same (within _ left) (within _ right)]
    exact apart
  · rw [hashTableRef_models els good models here, models.models.denotes x v]
    refine exists_congr fun e => and_congr_right fun mem => ?_
    rw [els.restrict_same (within e mem) here]

theorem hashTableSize_good (good : Good b E t) : hashTableSize t = t.contents.length := by
  obtain ⟨m, models⟩ := good.models
  exact models.models.sound.count

variable {entries : List (Value × Value)} {m : Value → Option Value}

/-- A pair for `x`, if there is one. -/
theorem Lists.find (lists : Lists same E entries m) (here : E x) :
    (entries.find? (fun e => same e.1 x) = none ∧ m x = none) ∨
      ∃ e ∈ entries, entries.find? (fun e => same e.1 x) = some e ∧ E e.1 ∧
        same e.1 x = true ∧ m x = some e.2 := by
  cases found : entries.find? (fun e => same e.1 x) with
  | none =>
    refine .inl ⟨rfl, Option.eq_none_iff_forall_ne_some.2 fun v present => ?_⟩
    obtain ⟨e, mem, equal, _⟩ := (lists.finds x here v).1 present
    exact List.find?_eq_none.1 found e mem equal
  | some e =>
    have mem := List.mem_of_find?_eq_some found
    have equal : same e.1 x = true :=
      List.find?_some (p := fun e : Value × Value => same e.1 x) found
    have value := (lists.finds x here e.2).2 ⟨e, mem, equal, rfl⟩
    exact .inr ⟨e, mem, rfl, lists.inside e mem, equal, value⟩

theorem Lists.find_self (els : Elements b E same) (lists : Lists same E entries m)
    {e : Value × Value} (mem : e ∈ entries) : m e.1 = some e.2 :=
  (lists.finds e.1 (lists.inside e mem) e.2).2
    ⟨e, mem, els.refl (lists.inside e mem), rfl⟩

/-- Copying pairs with different keys. -/
theorem foldlM_hashTableSet (els : Elements b E same) (who : String) :
    ∀ (entries : List (Value × Value)) (t : Table), Good b E t → (∀ e ∈ entries, E e.1) →
      entries.Pairwise (fun e f => same e.1 f.1 = false) →
      Yields OutOfMemory (entries.foldlM (fun dst e => hashTableSet b who dst e.1 e.2) t)
        fun t' => Good b E t' ∧ ∀ x, E x → hashTableRef b t' x =
          match entries.find? (fun e => same e.1 x) with
          | some e => some e.2
          | none => hashTableRef b t x := by
  intro entries
  induction entries with
  | nil => exact fun t good _ _ => ⟨good, fun _ _ => rfl⟩
  | cons e rest ih =>
    intro t good inside apart
    obtain ⟨first, later⟩ := List.pairwise_cons.1 apart
    have head := inside e List.mem_cons_self
    rw [List.foldlM_cons]
    refine (hashTableSet_spec els good head who e.2).bind fun t₁ stored => ?_
    obtain ⟨good₁, refs₁⟩ := stored
    refine (ih t₁ good₁ (fun f mem => inside f (List.mem_cons_of_mem _ mem)) later).mono ?_
    rintro t' ⟨good', refs'⟩
    refine ⟨good', fun x here => ?_⟩
    rw [refs' x here, refs₁ x here, List.find?_cons]
    by_cases equal : same e.1 x = true
    · have missed : rest.find? (fun f => same f.1 x) = none := by
        refine List.find?_eq_none.2 fun f mem other => ?_
        have here' := inside f (List.mem_cons_of_mem _ mem)
        have clash := first f mem
        rw [els.left head here here' equal, els.comm here here', other] at clash
        exact nomatch clash
      rw [missed]
      simp only [equal, if_true]
    · simp only [equal, Bool.false_eq_true, if_false]

theorem hashTableCopy_spec (els : Elements b E same) (good : Good b E t) :
    Yields OutOfMemory (hashTableCopy b t) fun t' => Good b E t' ∧
      ∀ x, E x → hashTableRef b t' x = hashTableRef b t x := by
  have lists := contents_lists els good
  unfold hashTableCopy
  rw [good.mode, good.quiet.equivFn, good.quiet.hashFn]
  refine (foldlM_hashTableSet els _ t.contents _ (makeHashtable_good _) lists.inside
    lists.apart).mono ?_
  rintro t' ⟨good', refs⟩
  refine ⟨good', fun x here => ?_⟩
  rw [refs x here, makeHashtable_ref els _ here]
  obtain ⟨missed, absent⟩ | ⟨e, _, found, _, _, present⟩ := lists.find here
  · rw [missed, absent]
  · rw [found, present]

end Chaaya.HashCollection
