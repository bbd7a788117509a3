import Mathlib

/-! Hashing with linear probing, apart from any table: which slots a search comes past,
and lists of pairs, pairwise different under a key equality, as finite maps. -/

namespace Chaaya.Probing

variable {K V : Type*}

/-- How a table compares and hashes its keys. -/
structure Keys (K : Type*) where
  equal : K → K → Bool
  hash : K → Nat

/-- The comparison is an equality and the hash respects it. -/
structure Lawful (κ : Keys K) : Prop where
  refl : ∀ k, κ.equal k k = true
  symm : ∀ {j k}, κ.equal j k = true → κ.equal k j = true
  trans : ∀ {i j k}, κ.equal i j = true → κ.equal j k = true → κ.equal i k = true
  respects : ∀ {j k}, κ.equal j k = true → κ.hash j = κ.hash k

theorem Lawful.equal_left {κ : Keys K} (law : Lawful κ) {i j : K} (same : κ.equal i j = true)
    (k : K) : κ.equal i k = κ.equal j k := by
  rw [Bool.eq_iff_iff]
  exact ⟨law.trans (law.symm same), law.trans same⟩

theorem Lawful.equal_comm {κ : Keys K} (law : Lawful κ) (j k : K) :
    κ.equal j k = κ.equal k j := by
  rw [Bool.eq_iff_iff]
  exact ⟨law.symm, law.symm⟩

/-- A search from `home` comes to slot `j` past used slots only. -/
def Probes (used : Nat → Prop) (cap home j : Nat) : Prop :=
  ∃ p < cap, (home + p) % cap = j ∧ ∀ q < p, used ((home + q) % cap)

theorem Probes.mono {used used' : Nat → Prop} {cap home j : Nat}
    (more : ∀ i, used i → used' i) (path : Probes used cap home j) :
    Probes used' cap home j := by
  obtain ⟨p, short, reached, passed⟩ := path
  exact ⟨p, short, reached, fun q before => more _ (passed q before)⟩

/-- A search that has stopped at an unused slot is past everything it can reach. -/
theorem Probes.passed {used : Nat → Prop} {cap home j p : Nat} (path : Probes used cap home j)
    (stopped : ¬ used ((home + p) % cap)) : j = (home + p) % cap ∨ ∃ q < p, (home + q) % cap = j := by
  obtain ⟨r, short, reached, earlier⟩ := path
  rcases Nat.lt_trichotomy r p with before | here | after
  · exact .inr ⟨r, before, reached⟩
  · exact .inl (by rw [← reached, here])
  · exact absurd (earlier p after) stopped

theorem Probes.within {used : Nat → Prop} {cap home j : Nat} (path : Probes used cap home j) :
    ∃ q < cap, (home + q) % cap = j := by
  obtain ⟨p, short, reached, _⟩ := path
  exact ⟨p, short, reached⟩

theorem next_slot (cap home p : Nat) : ((home + p) % cap + 1) % cap = (home + (p + 1)) % cap := by
  rw [Nat.mod_add_mod, Nat.add_assoc]

def Distinct (κ : Keys K) (entries : List (K × V)) : Prop :=
  entries.Pairwise fun e f => κ.equal e.1 f.1 = false

/-- The pairs in `entries` are the map `m`, read up to key equality. -/
def Denotes (κ : Keys K) (entries : List (K × V)) (m : K → Option V) : Prop :=
  ∀ k v, m k = some v ↔ ∃ e ∈ entries, κ.equal e.1 k = true ∧ e.2 = v

variable {κ : Keys K} {entries rest : List (K × V)} {m : K → Option V}

theorem Distinct.perm (law : Lawful κ) (distinct : Distinct κ entries) (same : entries.Perm rest) :
    Distinct κ rest :=
  (same.pairwise_iff fun apart => by rwa [law.equal_comm]).1 distinct

theorem Distinct.tail {e : K × V} (distinct : Distinct κ (e :: rest)) : Distinct κ rest :=
  (List.pairwise_cons.1 distinct).2

theorem Distinct.cons (law : Lawful κ) {k : K} (v : V) (new : ∀ e ∈ entries, κ.equal e.1 k = false)
    (distinct : Distinct κ entries) : Distinct κ ((k, v) :: entries) :=
  List.pairwise_cons.2 ⟨fun e mem => by rw [law.equal_comm]; exact new e mem, distinct⟩

theorem Denotes.nil : Denotes κ ([] : List (K × V)) fun _ => none := by
  simp [Denotes]

theorem Denotes.perm (denotes : Denotes κ entries m) (same : entries.Perm rest) :
    Denotes κ rest m := by
  intro k v
  rw [denotes k v]
  simp only [same.mem_iff]

theorem Denotes.none_iff (denotes : Denotes κ entries m) (k : K) :
    m k = none ↔ ∀ e ∈ entries, κ.equal e.1 k = false := by
  constructor
  · intro absent e mem
    by_contra equal
    have found := (denotes k e.2).2 ⟨e, mem, by simpa using equal, rfl⟩
    rw [absent] at found
    cases found
  · intro absent
    by_contra present
    obtain ⟨v, found⟩ := Option.ne_none_iff_exists'.1 present
    obtain ⟨e, mem, equal, _⟩ := (denotes k v).1 found
    rw [absent e mem] at equal
    cases equal

/-- Adding a pair with a new key. -/
theorem Denotes.cons (law : Lawful κ) {k : K} (v : V) (new : ∀ e ∈ entries, κ.equal e.1 k = false)
    (denotes : Denotes κ entries m) :
    Denotes κ ((k, v) :: entries) fun j => if κ.equal k j then some v else m j := by
  intro j w
  by_cases equal : κ.equal k j = true
  · have other : ∀ e ∈ entries, κ.equal e.1 j = false := by
      intro e mem
      rw [law.equal_comm, ← law.equal_left equal, law.equal_comm]
      exact new e mem
    simp only [equal, if_true, List.mem_cons, exists_eq_or_imp, true_and, Option.some.injEq]
    constructor
    · exact .inl
    · rintro (same | ⟨e, mem, same, _⟩)
      · exact same
      · rw [other e mem] at same
        cases same
  · simp only [equal, List.mem_cons, exists_eq_or_imp, Bool.false_eq_true, if_false, false_and,
      false_or]
    exact denotes j w

/-- Taking the pair with an equal key away. -/
theorem Denotes.remove (law : Lawful κ) {e : K × V} {k : K}
    (distinct : Distinct κ (e :: rest)) (equal : κ.equal e.1 k = true)
    (denotes : Denotes κ (e :: rest) m) :
    Denotes κ rest fun j => if κ.equal k j then none else m j := by
  have apart := (List.pairwise_cons.1 distinct).1
  intro j v
  by_cases same : κ.equal k j = true
  · simp only [same, if_true, reduceCtorEq, false_iff]
    rintro ⟨f, mem, found, _⟩
    have clash := apart f mem
    rw [law.equal_left equal, law.equal_left same, law.equal_comm, found] at clash
    exact nomatch clash
  · have other : κ.equal e.1 j = false := by
      rw [law.equal_left equal]
      simpa using same
    simp only [same, if_false, Bool.false_eq_true]
    rw [denotes j v]
    simp [other]

/-- Giving the pair with an equal key another value. -/
theorem Denotes.change (law : Lawful κ) {e : K × V} {k : K} (v : V)
    (distinct : Distinct κ (e :: rest)) (equal : κ.equal e.1 k = true)
    (denotes : Denotes κ (e :: rest) m) :
    Denotes κ ((e.1, v) :: rest) fun j => if κ.equal k j then some v else m j := by
  have apart := (List.pairwise_cons.1 distinct).1
  have added := (denotes.remove law distinct equal).cons law v fun f mem => by
    rw [law.equal_comm]
    exact apart f mem
  intro j w
  rw [← added j w]
  simp only [law.equal_left equal]
  by_cases same : κ.equal k j = true <;> simp [same]

end Chaaya.Probing
