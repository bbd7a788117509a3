import Chaaya.Import.Resolve

/-! The mapping that resolving an import set computes is the one it denotes. -/

namespace Chaaya.Import

/-- Pairs assigned in turn over a mapping. -/
def assign (m : Mapping) (pairs : List (Name × Value)) : Mapping := fun n =>
  match pairs.reverse.find? fun p => p.1 == n with
  | some p => some p.2
  | none => m n

theorem assign_cons (m : Mapping) (p : Name × Value) (rest : List (Name × Value)) :
    assign m (p :: rest) = assign (Function.update m p.1 (some p.2)) rest := by
  funext n
  simp only [assign, List.reverse_cons, List.find?_append]
  cases rest.reverse.find? fun p => p.1 == n with
  | some q => rfl
  | none =>
    by_cases same : p.1 = n
    · subst same
      simp
    · simp [same, Function.update_of_ne (Ne.symm same)]

theorem assign_or (m : Mapping) (pairs : List (Name × Value)) (n : Name) :
    assign m pairs n = (assign (fun _ => none) pairs n).or (m n) := by
  unfold assign
  cases pairs.reverse.find? fun p => p.1 == n <;> simp

theorem assign_absent {pairs : List (Name × Value)} {n : Name} (m : Mapping)
    (absent : n ∉ pairs.map Prod.fst) : assign m pairs n = m n := by
  have none : (pairs.reverse.find? fun p => p.1 == n) = none := by
    refine List.find?_eq_none.2 fun p mem same => absent ?_
    rw [← eq_of_beq same]
    exact List.mem_map_of_mem (List.mem_reverse.1 mem)
  simp only [assign, none]

theorem assign_tableOf (pairs : List (Name × Value)) :
    assign (fun _ => none) pairs = tableOf pairs := by
  funext n
  unfold assign tableOf
  cases pairs.reverse.find? fun p => p.1 == n <;> rfl

theorem definedPairs_cons (b : Binding) (env : Env) :
    definedPairs (b :: env) =
      if b.defined then (b.name, b.value) :: definedPairs env else definedPairs env := by
  unfold definedPairs
  cases here : b.defined <;> simp [here]

theorem mem_definedPairs {env : Env} {p : Name × Value} (mem : p ∈ definedPairs env) :
    p.1 ∈ env.map (·.name) := by
  obtain ⟨b, inside, rfl⟩ := List.mem_map.1 mem
  exact List.mem_map.2 ⟨b, (List.mem_filter.1 inside).1, rfl⟩

theorem definedPairs_length (env : Env) : (definedPairs env).length ≤ env.length := by
  rw [definedPairs, List.length_map]
  exact List.length_filter_le _ _

theorem Good.pairs_clean {env : Env} (good : Good env) : ∀ p ∈ definedPairs env, 0 ∉ p.1 := by
  intro p mem
  obtain ⟨b, inside, same⟩ := List.mem_map.1 (mem_definedPairs mem)
  rw [← same]
  exact good.clean b inside

theorem assign_definedPairs {env : Env} (nodup : (env.map (·.name)).Nodup) :
    assign (fun _ => none) (definedPairs env) = valueOf env := by
  induction env with
  | nil => rfl
  | cons b env ih =>
    rw [List.map_cons, List.nodup_cons] at nodup
    have ih := ih nodup.2
    funext n
    rw [valueOf_cons, definedPairs_cons]
    by_cases here : b.name = n
    · have absent : n ∉ (definedPairs env).map Prod.fst := by
        intro mem
        obtain ⟨p, inside, rfl⟩ := List.mem_map.1 mem
        exact nodup.1 (here ▸ mem_definedPairs inside)
      rw [if_pos here]
      split
      · rw [assign_cons, assign_absent _ absent, here, Function.update_self]
      · rw [assign_absent _ absent]
    · rw [if_neg here, ← ih]
      split
      · rw [assign_cons, assign_or, Function.update_of_ne (Ne.symm here), Option.or_none]
      · rfl

theorem defineAll_spec (message : String) (pairs : List (Name × Value)) : ∀ env : Env, Good env →
    (∀ p ∈ pairs, 0 ∉ p.1) → env.length + pairs.length ≤ libEnvMax →
      ∃ env', defineAll message env pairs = .ok env' ∧ Good env' ∧
        valueOf env' = assign (valueOf env) pairs ∧ env'.length ≤ env.length + pairs.length := by
  induction pairs with
  | nil => exact fun env good _ _ => ⟨env, rfl, good, rfl, by simp⟩
  | cons p rest ih =>
    intro env good clean room
    rw [List.length_cons] at room
    obtain ⟨env', defined, good', values, names⟩ := internDefine_spec libEnvMax p.2 good
      (clean p List.mem_cons_self) (.inr (by omega))
    have grown : env'.length ≤ env.length + 1 := by
      obtain same | ⟨_, same⟩ := names <;>
      · have := congrArg List.length same
        simp at this
        omega
    obtain ⟨final, done, good, values', size⟩ :=
      ih env' good' (fun q mem => clean q (List.mem_cons_of_mem _ mem)) (by omega)
    refine ⟨final, ?_, good, ?_, ?_⟩
    · rw [defineAll, defined]
      exact done
    · rw [values', values, assign_cons]
    · rw [List.length_cons]
      omega

theorem mergeEnvIntoEnv_spec {env : Env} (good : Good env) (size : env.length ≤ libMaxExports) :
    ∃ env', mergeEnvIntoEnv [] env = .ok env' ∧ Good env' ∧ valueOf env' = valueOf env ∧
      env'.length ≤ (definedPairs env).length := by
  have short := definedPairs_length env
  obtain ⟨env', done, good', values, grown⟩ := defineAll_spec "" (definedPairs env) []
    ⟨List.nodup_nil, nofun⟩ good.pairs_clean (by
      simp only [List.length_nil, libEnvMax]
      simp only [libMaxExports] at size
      omega)
  refine ⟨env', done, good', ?_, by simpa using grown⟩
  rw [values, valueOf_nil, assign_definedPairs good.nodup]

theorem mem_names_of_valueOf {env : Env} {n : Name} (present : (valueOf env n).isSome) :
    n ∈ env.map (·.name) := by
  by_contra absent
  rw [valueOf_none absent] at present
  exact nomatch present

/-- Looking a clean name up by `strcmp`. -/
theorem envFindCstr_cases {env : Env} {n : Name} (good : Good env) (clean : 0 ∉ n) :
    envFindCstr env n = none ∧ valueOf env n = none ∨
    ∃ i, envFindCstr env n = some i ∧ valueOf env n = some (bindingAt env i) ∧
      Good (undefine env i) ∧
      valueOf (undefine env i) = Function.update (valueOf env) n none := by
  have found := envFindCstr_spec good clean
  cases search : envFindCstr env n with
  | none =>
    rw [search] at found
    exact .inl ⟨rfl, found⟩
  | some i =>
    rw [search] at found
    exact .inr ⟨i, rfl, found⟩

/-- `only`: after the identifiers `done`, the table maps these and nothing else. -/
theorem selectOnly_spec {source : Env} (good : Good source)
    (size : source.length ≤ libMaxExports) (ids : List Name) : ∀ (done : List Name) (out : Env),
    (∀ id ∈ ids, 0 ∉ id) → Good out → out.map (·.name) ⊆ source.map (·.name) →
    (valueOf out = fun n => if n ∈ done then valueOf source n else none) →
      match selectOnly source (.list (ids.map .symbol)) out with
      | .ok env => (∀ id ∈ ids, (valueOf source id).isSome) ∧ Good env ∧
          env.map (·.name) ⊆ source.map (·.name) ∧
          valueOf env = fun n => if n ∈ done ++ ids then valueOf source n else none
      | .error _ => ∃ id ∈ ids, valueOf source id = none := by
  induction ids with
  | nil => exact fun done out _ goodOut names values =>
    ⟨by simp, goodOut, names, by simpa using values⟩
  | cons id ids ih =>
    intro done out clean goodOut names values
    simp only [List.map_cons, Datum.list, selectOnly]
    obtain ⟨search, absent⟩ | ⟨i, search, present, _, _⟩ :=
      envFindCstr_cases good (clean id List.mem_cons_self)
    · rw [search]
      exact ⟨id, List.mem_cons_self, absent⟩
    · have fits : out.length ≤ source.length := by
        have subset := (goodOut.nodup.subperm names).length_le
        simpa using subset
      obtain ⟨out', defined, good', values', names'⟩ := internDefine_spec libEnvMax
        (bindingAt source i) goodOut (clean id List.mem_cons_self)
        (.inr (by simp only [libMaxExports] at size; simp only [libEnvMax]; omega))
      have mem : id ∈ source.map (·.name) := mem_names_of_valueOf (by simp [present])
      have within : out'.map (·.name) ⊆ source.map (·.name) := by
        obtain same | ⟨_, same⟩ := names'
        · rwa [same]
        · rw [same, List.append_subset]
          exact ⟨names, List.cons_subset.2 ⟨mem, List.nil_subset _⟩⟩
      have mapping : valueOf out' = fun n => if n ∈ done ++ [id] then valueOf source n else none := by
        funext n
        rw [values', values]
        by_cases here : n = id
        · subst here
          simp [present]
        · rw [Function.update_of_ne here]
          simp [here]
      rw [search]
      simp only [defined]
      have rest := ih (done ++ [id]) out' (fun j mem => clean j (List.mem_cons_of_mem _ mem))
        good' within mapping
      split at rest
      · obtain ⟨all, good, within, mapping⟩ := rest
        refine ⟨?_, good, within, by simpa using mapping⟩
        intro j mem
        obtain rfl | later := List.mem_cons.1 mem
        · simp [present]
        · exact all j later
      · obtain ⟨j, mem, absent⟩ := rest
        exact ⟨j, List.mem_cons_of_mem _ mem, absent⟩

theorem definedPairs_undefine {env : Env} : ∀ {i : Nat} {b : Binding}, env[i]? = some b →
    b.defined = true → (definedPairs (undefine env i)).length + 1 = (definedPairs env).length := by
  induction env with
  | nil => simp
  | cons c env ih =>
    intro i b held defined
    cases i with
    | zero =>
      obtain rfl : c = b := by simpa using held
      simp [undefine, definedPairs_cons, defined]
    | succ i =>
      have rest := ih (i := i) (by simpa using held) defined
      rw [undefine, List.modify_succ_cons, definedPairs_cons, definedPairs_cons]
      change (definedPairs (env.modify i _)).length + 1 = _ at rest
      split
      · rw [List.length_cons, List.length_cons, rest]
      · exact rest

theorem envFindCstr_defined {env : Env} {n : Name} {i : Nat} (found : envFindCstr env n = some i) :
    (definedPairs (undefine env i)).length + 1 = (definedPairs env).length := by
  obtain ⟨inside, test, -⟩ := List.findIdx?_eq_some_iff_getElem.1 found
  rw [Bool.and_eq_true] at test
  exact definedPairs_undefine (List.getElem?_eq_getElem inside) test.1

/-- `except`: every identifier has to be there when its turn comes. -/
theorem dropExcept_spec (ids : List Name) : ∀ source : Env, Good source → (∀ id ∈ ids, 0 ∉ id) →
    match dropExcept (.list (ids.map .symbol)) source with
    | .ok env => (∀ id ∈ ids, (valueOf source id).isSome) ∧ ids.Nodup ∧ Good env ∧
        env.length = source.length ∧
        valueOf env = fun n => if n ∈ ids then none else valueOf source n
    | .error _ => ¬ ((∀ id ∈ ids, (valueOf source id).isSome) ∧ ids.Nodup) := by
  induction ids with
  | nil => exact fun source good _ => ⟨by simp, List.nodup_nil, good, rfl, by simp⟩
  | cons id ids ih =>
    intro source good clean
    simp only [List.map_cons, Datum.list, dropExcept]
    obtain ⟨search, absent⟩ | ⟨i, search, present, good', values⟩ :=
      envFindCstr_cases good (clean id List.mem_cons_self)
    · rw [search]
      rintro ⟨all, _⟩
      have here := all id List.mem_cons_self
      rw [absent] at here
      exact nomatch here
    · rw [search]
      have rest := ih (undefine source i) good' fun j mem => clean j (List.mem_cons_of_mem _ mem)
      have later : (∀ j ∈ ids, (valueOf (undefine source i) j).isSome) ∧ ids.Nodup ↔
          (∀ j ∈ id :: ids, (valueOf source j).isSome) ∧ (id :: ids).Nodup := by
        rw [values, List.nodup_cons]
        constructor
        · rintro ⟨all, nodup⟩
          have other : id ∉ ids := by
            intro mem
            have gone := all id mem
            rw [Function.update_self] at gone
            exact nomatch gone
          refine ⟨fun j mem => ?_, other, nodup⟩
          obtain rfl | inside := List.mem_cons.1 mem
          · simp [present]
          · have there := all j inside
            rwa [Function.update_of_ne (by rintro rfl; exact other inside)] at there
        · rintro ⟨all, other, nodup⟩
          refine ⟨fun j mem => ?_, nodup⟩
          rw [Function.update_of_ne (by rintro rfl; exact other mem)]
          exact all j (List.mem_cons_of_mem _ mem)
      dsimp only
      split at rest
      · obtain ⟨all, nodup, good, size, mapping⟩ := rest
        obtain ⟨all, nodup⟩ := later.1 ⟨all, nodup⟩
        refine ⟨all, nodup, good, by simpa [undefine] using size, ?_⟩
        rw [mapping, values]
        funext n
        by_cases here : n = id
        · subst here
          simp
        · rw [Function.update_of_ne here]
          simp [here]
      · exact fun both => rest (later.2 both)

/-- `prefix`: every prefixed name has to fit the buffer. -/
theorem addPrefix_spec {pref : Name} (cleanPref : 0 ∉ pref) (pairs : List (Name × Value)) :
    ∀ out : Env, Good out → (∀ p ∈ pairs, 0 ∉ p.1) → out.length + pairs.length ≤ libMaxExports →
      match addPrefix pref pairs out with
      | .ok env => (∀ p ∈ pairs, (pref ++ p.1).length < prefixBufferSize) ∧ Good env ∧
          env.length ≤ out.length + pairs.length ∧
          valueOf env = assign (valueOf out) (pairs.map fun p => (pref ++ p.1, p.2))
      | .error _ => ∃ p ∈ pairs, prefixBufferSize ≤ (pref ++ p.1).length := by
  induction pairs with
  | nil => exact fun out good _ _ => ⟨by simp, good, by simp, rfl⟩
  | cons p rest ih =>
    intro out good clean room
    rw [List.length_cons] at room
    have cleanName := clean p List.mem_cons_self
    simp only [addPrefix, cString_clean cleanPref, cString_clean cleanName]
    by_cases long : prefixBufferSize ≤ (pref ++ p.1).length
    · rw [if_pos long]
      exact ⟨p, List.mem_cons_self, long⟩
    · have cleanBoth : 0 ∉ pref ++ p.1 := by
        rw [List.mem_append]
        exact not_or.2 ⟨cleanPref, cleanName⟩
      obtain ⟨out', defined, good', values, names⟩ := internDefine_spec libEnvMax p.2
        good cleanBoth (.inr (by simp only [libMaxExports] at room; simp only [libEnvMax]; omega))
      have grown : out'.length ≤ out.length + 1 := by
        obtain same | ⟨_, same⟩ := names <;>
        · have := congrArg List.length same
          simp at this
          omega
      have later := ih out' good' (fun q mem => clean q (List.mem_cons_of_mem _ mem)) (by omega)
      rw [if_neg long, defined]
      dsimp only
      split at later
      · obtain ⟨short, good, size, mapping⟩ := later
        refine ⟨?_, good, by rw [List.length_cons]; omega, ?_⟩
        · intro q mem
          obtain rfl | inside := List.mem_cons.1 mem
          · omega
          · exact short q inside
        · rw [mapping, values, List.map_cons, assign_cons]
      · obtain ⟨q, mem, long⟩ := later
        exact ⟨q, List.mem_cons_of_mem _ mem, long⟩

/-- `rename`: the old names are taken away, and what they had is kept for the new ones. -/
theorem takePending_spec (pairs : List (Name × Name)) :
    ∀ (source : Env) (pending : List (Name × Value)), Good source → (∀ p ∈ pairs, 0 ∉ p.1) →
      pending.length + (definedPairs source).length ≤ libMaxExports →
      match takePending (.list (pairs.map fun p => .list [.symbol p.1, .symbol p.2]))
          source pending with
      | .ok (env, news) => (∀ p ∈ pairs, (valueOf source p.1).isSome) ∧
          (pairs.map Prod.fst).Nodup ∧ Good env ∧ env.length = source.length ∧
          news.length + (definedPairs env).length =
            pending.length + (definedPairs source).length ∧
          (valueOf env = fun n => if n ∈ pairs.map Prod.fst then none else valueOf source n) ∧
          news = pending ++ pairs.map fun p => (p.2, (valueOf source p.1).getD .undefined)
      | .error _ => ¬ ((∀ p ∈ pairs, (valueOf source p.1).isSome) ∧
          (pairs.map Prod.fst).Nodup) := by
  induction pairs with
  | nil => exact fun source pending good _ _ => ⟨by simp, List.nodup_nil, good, rfl, rfl,
      by simp, by simp⟩
  | cons p pairs ih =>
    intro source pending good clean room
    simp only [List.map_cons, Datum.list, takePending]
    obtain ⟨search, absent⟩ | ⟨i, search, present, good', values⟩ :=
      envFindCstr_cases good (clean p List.mem_cons_self)
    · rw [search]
      rintro ⟨all, _⟩
      have here := all p List.mem_cons_self
      rw [absent] at here
      exact nomatch here
    · have taken := envFindCstr_defined search
      have room' : ¬ libEnvMax ≤ pending.length := by
        simp only [libMaxExports] at room
        simp only [libEnvMax]
        omega
      rw [search]
      dsimp only
      rw [if_neg room']
      have rest := ih (undefine source i) (pending ++ [(p.2, bindingAt source i)]) good'
        (fun q mem => clean q (List.mem_cons_of_mem _ mem))
        (by rw [List.length_append, List.length_singleton]; omega)
      simp only [Datum.list] at rest
      have apart : p.1 ∉ pairs.map Prod.fst → ∀ q ∈ pairs, q.1 ≠ p.1 := by
        intro other q inside same
        rw [← same] at other
        exact other (List.mem_map_of_mem inside)
      have later : (∀ q ∈ pairs, (valueOf (undefine source i) q.1).isSome) ∧
            (pairs.map Prod.fst).Nodup ↔
          (∀ q ∈ p :: pairs, (valueOf source q.1).isSome) ∧ (p.1 :: pairs.map Prod.fst).Nodup := by
        rw [values, List.nodup_cons]
        constructor
        · rintro ⟨all, nodup⟩
          have other : p.1 ∉ pairs.map Prod.fst := by
            intro mem
            obtain ⟨q, inside, same⟩ := List.mem_map.1 mem
            have gone := all q inside
            rw [same, Function.update_self] at gone
            exact nomatch gone
          refine ⟨fun q mem => ?_, other, nodup⟩
          obtain rfl | inside := List.mem_cons.1 mem
          · simp [present]
          · have there := all q inside
            rwa [Function.update_of_ne (apart other q inside)] at there
        · rintro ⟨all, other, nodup⟩
          refine ⟨fun q mem => ?_, nodup⟩
          rw [Function.update_of_ne (apart other q mem)]
          exact all q (List.mem_cons_of_mem _ mem)
      split at rest
      · obtain ⟨all, nodup, good, size, count, mapping, news⟩ := rest
        obtain ⟨all, nodup⟩ := later.1 ⟨all, nodup⟩
        refine ⟨all, nodup, good, by simpa [undefine] using size, ?_, ?_, ?_⟩
        · rw [count, List.length_append, List.length_singleton]
          omega
        · rw [mapping, values]
          funext n
          by_cases here : n = p.1
          · subst here
            simp
          · rw [Function.update_of_ne here]
            have same : n ∈ p.1 :: pairs.map Prod.fst ↔ n ∈ pairs.map Prod.fst := by
              rw [List.mem_cons, or_iff_right here]
            simp only [same]
        · rw [news, List.append_assoc, List.singleton_append, present, Option.getD_some]
          have other := (List.nodup_cons.1 nodup).1
          refine congrArg (pending ++ (p.2, bindingAt source i) :: ·) (List.map_congr_left ?_)
          intro q inside
          rw [values, Function.update_of_ne (apart other q inside)]
      · exact fun both => rest (later.2 both)

/-! ## The denotation -/

variable {ensure : Datum → Except String Library}

theorem Denotes.unique {s : ImportSet} {m m' : Mapping} (first : Denotes ensure s m)
    (second : Denotes ensure s m') : m = m' := by
  induction first generalizing m' with
  | library found =>
    cases second with
    | library found' =>
      rw [found] at found'
      rw [Except.ok.inj found']
  | only _ _ ih =>
    cases second with
    | only inner _ => rw [ih inner]
  | except _ _ _ ih =>
    cases second with
    | except inner _ _ => rw [ih inner]
  | prefixed _ _ ih =>
    cases second with
    | prefixed inner _ => rw [ih inner]
  | rename _ _ _ ih =>
    cases second with
    | rename inner _ _ => rw [ih inner]

/-- No name in the set has a zero byte, and its library name is no modifier. -/
def ImportSet.Written : ImportSet → Prop
  | library name => LibraryName name
  | only set ids => set.Written ∧ ∀ id ∈ ids, 0 ∉ id
  | except set ids => set.Written ∧ ∀ id ∈ ids, 0 ∉ id
  | prefixed set pref => set.Written ∧ 0 ∉ pref
  | rename set pairs => set.Written ∧ ∀ p ∈ pairs, 0 ∉ p.1 ∧ 0 ∉ p.2

/-- What the array of exports holds. -/
structure Library.Sound (lib : Library) : Prop where
  short : lib.exports.length ≤ libMaxExports
  clean : ∀ p ∈ lib.exports, 0 ∉ p.1

theorem resolve_library {name : Datum} (written : LibraryName name) (out : Env) :
    resolveImportSet ensure name out =
      match ensure name with
      | .error e => .error e
      | .ok lib => libraryIntoEnv out lib := by
  cases name with
  | pair car cdr =>
    cases car with
    | symbol h =>
      simp only [LibraryName, List.mem_cons, List.not_mem_nil, or_false, not_or] at written
      obtain ⟨notOnly, notExcept, notPrefix, notRename⟩ := written
      unfold resolveImportSet
      cases ensure (.pair (.symbol h) cdr) <;>
        simp only [notOnly, notExcept, notPrefix, notRename, if_false]
    | nil | fixnum _ | pair _ _ | vector _ | other => rfl
  | nil | symbol _ | fixnum _ | vector _ | other => exact written.elim

theorem assign_prefixed (pref : Name) (pairs : List (Name × Value)) :
    assign (fun _ => none) (pairs.map fun p : Name × Value => (pref ++ p.1, p.2)) = fun n =>
      if pref <+: n then assign (fun _ => none) pairs (n.drop pref.length) else none := by
  funext n
  simp only [assign, ← List.map_reverse, List.find?_map]
  by_cases here : pref <+: n
  · obtain ⟨rest, rfl⟩ := here
    have same : ((fun p : Name × Value => p.1 == pref ++ rest) ∘
        fun p : Name × Value => (pref ++ p.1, p.2)) =
        fun p => p.1 == rest := by
      funext p
      change (pref ++ p.1 == pref ++ rest) = (p.1 == rest)
      rw [Bool.eq_iff_iff]
      simp
    rw [same, if_pos (List.prefix_append pref rest), List.drop_left]
    cases pairs.reverse.find? fun p => p.1 == rest <;> rfl
  · have none : pairs.reverse.find?
        ((fun p : Name × Value => p.1 == n) ∘
          fun p : Name × Value => (pref ++ p.1, p.2)) = none := by
      refine List.find?_eq_none.2 fun p _ same => here ?_
      exact ⟨p.1, eq_of_beq same⟩
    rw [none, if_neg here]
    rfl

theorem assign_renamed (m : Mapping) (pairs : List (Name × Name))
    (present : ∀ p ∈ pairs, (m p.1).isSome) :
    assign (fun n => if n ∈ pairs.map Prod.fst then none else m n)
      (pairs.map fun p => (p.2, (m p.1).getD .undefined)) = renamed m pairs := by
  funext n
  simp only [assign, renamed, ← List.map_reverse, List.find?_map]
  change (match (pairs.reverse.find? fun p => p.2 == n).map
      (fun p => (p.2, (m p.1).getD .undefined)) with
    | some p => some p.2
    | none => _) = _
  cases search : pairs.reverse.find? fun p => p.2 == n with
  | none => rfl
  | some p =>
    have mem : p ∈ pairs := List.mem_reverse.1 (List.mem_of_find?_eq_some search)
    obtain ⟨v, held⟩ := Option.isSome_iff_exists.1 (present p mem)
    simp [held]

/-- Resolving an import set gives the table of the mapping it denotes, and an error where
it denotes none. -/
theorem resolveImportSet_spec (libraries : ∀ name lib, ensure name = .ok lib → lib.Sound)
    (s : ImportSet) (written : s.Written) :
    match resolveImportSet ensure s.datum [] with
    | .ok env => Good env ∧ env.length ≤ libMaxExports ∧ Denotes ensure s (valueOf env)
    | .error _ => ∀ m, ¬ Denotes ensure s m := by
  induction s with
  | library name =>
    rw [ImportSet.datum, resolve_library written]
    cases found : ensure name with
    | error e =>
      rintro m ⟨found'⟩
      rw [found] at found'
      exact nomatch found'
    | ok lib =>
      have sound := libraries name lib found
      have short := sound.short
      obtain ⟨env, done, good, values, size⟩ := defineAll_spec "" lib.exports []
        ⟨List.nodup_nil, nofun⟩ sound.clean (by
          simp only [List.length_nil, libEnvMax]
          simp only [libMaxExports] at short
          omega)
      dsimp only
      rw [libraryIntoEnv, done]
      refine ⟨good, by simpa using size.trans (by simpa using short), ?_⟩
      rw [values, valueOf_nil, assign_tableOf]
      exact .library found
  | only set ids ih =>
    have inner := ih written.1
    rw [ImportSet.datum, resolveImportSet, if_pos (by decide)]
    cases source : resolveImportSet ensure set.datum [] with
    | error e =>
      rw [source] at inner
      rintro m (_ | ⟨denotes, _⟩)
      exact inner _ denotes
    | ok env =>
      rw [source] at inner
      obtain ⟨good, size, denotes⟩ := inner
      have selected := selectOnly_spec good size ids [] [] written.2 ⟨List.nodup_nil, nofun⟩
        (List.nil_subset _) (by simp [valueOf_nil])
      dsimp only
      split at selected
      · obtain ⟨all, goodOut, names, values⟩ := selected
        have fits := (goodOut.nodup.subperm names).length_le
        refine ⟨goodOut, by simpa using fits.trans (by simpa using size), ?_⟩
        rw [values, List.nil_append]
        exact .only denotes all
      · obtain ⟨id, mem, absent⟩ := selected
        rintro m (_ | ⟨denotes', all⟩)
        have here := all id mem
        rw [denotes'.unique denotes, absent] at here
        exact nomatch here
  | except set ids ih =>
    have inner := ih written.1
    rw [ImportSet.datum, resolveImportSet, if_neg (by decide), if_pos (by decide)]
    cases source : resolveImportSet ensure set.datum [] with
    | error e =>
      rw [source] at inner
      rintro m (_ | _ | ⟨denotes, _, _⟩)
      exact inner _ denotes
    | ok env =>
      rw [source] at inner
      obtain ⟨good, size, denotes⟩ := inner
      have dropped := dropExcept_spec ids env good written.2
      dsimp only
      cases remaining : dropExcept (.list (ids.map .symbol)) env with
      | error e =>
        rw [remaining] at dropped
        rintro m (_ | _ | ⟨denotes', all, nodup⟩)
        rw [denotes'.unique denotes] at all
        exact dropped ⟨all, nodup⟩
      | ok rest =>
        rw [remaining] at dropped
        obtain ⟨all, nodup, goodRest, same, values⟩ := dropped
        obtain ⟨out, merged, goodOut, valuesOut, grown⟩ :=
          mergeEnvIntoEnv_spec goodRest (by omega)
        dsimp only
        rw [merged]
        have short := definedPairs_length rest
        refine ⟨goodOut, by omega, ?_⟩
        rw [valuesOut, values]
        exact .except denotes all nodup
  | prefixed set pref ih =>
    have inner := ih written.1
    rw [ImportSet.datum, Datum.list, Datum.list, resolveImportSet, if_neg (by decide),
      if_neg (by decide), if_pos (by decide)]
    dsimp only
    cases source : resolveImportSet ensure set.datum [] with
    | error e =>
      rw [source] at inner
      rintro m (_ | _ | _ | ⟨denotes, _⟩)
      exact inner _ denotes
    | ok env =>
      rw [source] at inner
      obtain ⟨good, size, denotes⟩ := inner
      have short := definedPairs_length env
      have spelled := assign_definedPairs good.nodup
      have added := addPrefix_spec written.2 (definedPairs env) [] ⟨List.nodup_nil, nofun⟩
        good.pairs_clean (by simp only [List.length_nil]; omega)
      dsimp only
      split at added
      · obtain ⟨fits, goodOut, grown, values⟩ := added
        refine ⟨goodOut, by simp only [List.length_nil] at grown; omega, ?_⟩
        rw [values, valueOf_nil, assign_prefixed, spelled]
        refine .prefixed denotes fun n present => ?_
        rw [← spelled, assign_tableOf, tableOf, Option.isSome_map, List.find?_isSome] at present
        obtain ⟨p, mem, same⟩ := present
        rw [← eq_of_beq same]
        exact fits p (List.mem_reverse.1 mem)
      · obtain ⟨p, mem, long⟩ := added
        rintro m (_ | _ | _ | ⟨denotes', fits⟩)
        have here := fits p.1 (by
          rw [denotes'.unique denotes, ← spelled, assign_tableOf, tableOf, Option.isSome_map,
            List.find?_isSome]
          exact ⟨p, List.mem_reverse.2 mem, beq_self_eq_true _⟩)
        omega
  | rename set pairs ih =>
    have inner := ih written.1
    rw [ImportSet.datum, resolveImportSet, if_neg (by decide), if_neg (by decide),
      if_neg (by decide), if_pos (by decide)]
    cases source : resolveImportSet ensure set.datum [] with
    | error e =>
      rw [source] at inner
      rintro m (_ | _ | _ | _ | ⟨denotes, _, _⟩)
      exact inner _ denotes
    | ok env =>
      rw [source] at inner
      obtain ⟨good, size, denotes⟩ := inner
      have short := definedPairs_length env
      have taken := takePending_spec pairs env [] good (fun p mem => (written.2 p mem).1)
        (by simp only [List.length_nil]; omega)
      dsimp only
      cases result : takePending (.list (pairs.map fun p => .list [.symbol p.1, .symbol p.2]))
          env [] with
      | error e =>
        rw [result] at taken
        rintro m (_ | _ | _ | _ | ⟨denotes', all, nodup⟩)
        rw [denotes'.unique denotes] at all
        exact taken ⟨all, nodup⟩
      | ok parts =>
        obtain ⟨rest, news⟩ := parts
        rw [result] at taken
        obtain ⟨all, nodup, goodRest, same, count, values, rfl⟩ := taken
        rw [List.nil_append, List.length_nil] at count
        obtain ⟨out, merged, goodOut, valuesOut, grown⟩ :=
          mergeEnvIntoEnv_spec goodRest (by omega)
        obtain ⟨final, defined, goodFinal, valuesFinal, grownFinal⟩ :=
          defineAll_spec "import rename: environment full"
            (pairs.map fun p => (p.2, (valueOf env p.1).getD .undefined)) out goodOut
            (by
              intro q mem
              obtain ⟨p, inside, rfl⟩ := List.mem_map.1 mem
              exact (written.2 p inside).2)
            (by simp only [libMaxExports] at size; simp only [libEnvMax]; omega)
        dsimp only
        rw [merged]
        dsimp only
        rw [List.nil_append, defined]
        refine ⟨goodFinal, by omega, ?_⟩
        rw [valuesFinal, valuesOut, values, assign_renamed (valueOf env) pairs all]
        exact .rename denotes all nodup

end Chaaya.Import
