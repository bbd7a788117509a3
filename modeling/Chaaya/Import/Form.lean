import Chaaya.Import.Merge

/-! What an import form makes visible. -/

namespace Chaaya.Import

variable {w : World} {ensure : Datum → Except String Library}

/-- Nothing that is defined is lost or changed. -/
structure Keeps (g g' : Env) : Prop where
  nodup : (g.map (·.name)).Nodup → (g'.map (·.name)).Nodup
  kept : (g.map (·.name)).Nodup → ∀ n v, valueOf g n = some v → valueOf g' n = some v

theorem Keeps.refl (g : Env) : Keeps g g := ⟨id, fun _ _ _ held => held⟩

theorem Keeps.trans {g₁ g₂ g₃ : Env} (first : Keeps g₁ g₂) (second : Keeps g₂ g₃) : Keeps g₁ g₃ where
  nodup start := second.nodup (first.nodup start)
  kept start n v held := second.kept (first.nodup start) n v (first.kept start n v held)

theorem envIntern_room {limit i : Nat} {env env' : Env} {n : Name}
    (interned : envIntern limit env n = some (env', i)) :
    n ∈ env.map (·.name) ∨ env.length < limit := by
  unfold envIntern at interned
  cases search : envFind env n with
  | some j =>
    obtain ⟨b, held, same⟩ := envFind_some search
    exact .inl (List.mem_map.2 ⟨b, List.mem_of_getElem? held, same⟩)
  | none =>
    rw [search] at interned
    by_cases full : limit ≤ env.length
    · simp [full] at interned
    · exact .inr (by omega)

/-- An undefined slot has no value to lose. -/
theorem keeps_define {limit i : Nat} {env env' : Env} {n : Name} (v : Value)
    (interned : envIntern limit env n = some (env', i)) :
    Keeps env env' ∧
      ((env'[i]?.map (·.defined)).getD false = false → Keeps env (envDefine env' i v)) := by
  have spec := fun nodup => envIntern_spec limit nodup (envIntern_room interned)
  have same : ∀ c : Binding, ({ c with value := v, defined := true } : Binding).name = c.name :=
    fun _ => rfl
  refine ⟨⟨fun nodup => ?_, fun nodup m u held => ?_⟩,
    fun vacant => ⟨fun nodup => ?_, fun nodup m u held => ?_⟩⟩
  all_goals
    obtain ⟨env'', j, b, interned', nodup', slot, rfl, values, -⟩ := spec nodup
    obtain ⟨rfl, rfl⟩ := Prod.mk.inj (Option.some.inj (interned.symm.trans interned'))
  · exact nodup'
  · rwa [values]
  · rwa [envDefine, names_modify _ same]
  · rw [envDefine, valueOf_modify _ same env' i b nodup' slot]
    rw [slot] at vacant
    have here := valueOf_modify id (fun _ => rfl) env' i b nodup' slot
    rw [List.modify_id] at here
    rw [← values, here, show id b = b from rfl, show b.defined = false from vacant] at held
    by_cases at_b : m = b.name
    · subst at_b
      simp at held
    · rw [Function.update_of_ne at_b] at held
      rwa [Function.update_of_ne at_b]

theorem defineMacroIn_globals {home : Option Nat} {vm vm' : Vm} {name : Name} {tr : Nat}
    (defined : defineMacroIn home vm name tr = some vm') : vm'.globals = vm.globals := by
  unfold defineMacroIn defineMacro at defined
  split at defined
  · obtain rfl := Option.some.inj defined
    rfl
  · split at defined
    · exact nomatch defined
    · obtain rfl := Option.some.inj defined
      rfl

theorem copyOneDefEnvBinding_keeps {recurse : Nat → Vm → List Nat → Copied}
    (deeper : ∀ tr vm visited, Keeps vm.globals (recurse tr vm visited).1.globals) (home : Nat)
    (name : Name) (val : Value) (vm : Vm) (visited : List Nat) :
    Keeps vm.globals (copyOneDefEnvBinding w recurse home name val vm visited).1.globals := by
  unfold copyOneDefEnvBinding
  split
  · split
    · exact deeper _ _ _
    · split
      · exact .refl _
      · rename_i vm' defined
        rw [← defineMacroIn_globals defined]
        exact deeper _ _ _
  · split
    · exact .refl _
    · rename_i globals i interned
      obtain ⟨found, fresh⟩ := keeps_define val interned
      split
      · exact found
      · rename_i vacant
        exact fresh (by simpa using vacant)

theorem copyNames_keeps {recurse : Nat → Vm → List Nat → Copied}
    (deeper : ∀ tr vm visited, Keeps vm.globals (recurse tr vm visited).1.globals) (home : Nat)
    (names : List Name) : ∀ vm visited,
      Keeps vm.globals (copyNames w recurse home names vm visited).1.globals := by
  induction names with
  | nil => exact fun vm _ => .refl vm.globals
  | cons name names ih =>
    intro vm visited
    simp only [copyNames]
    split
    · exact ih vm visited
    · rename_i val _
      have one := copyOneDefEnvBinding_keeps (w := w) deeper home name val vm visited
      split
      · rename_i vm' visited' result
        rw [result] at one
        exact one.trans (ih vm' visited')
      · exact one

theorem copyFreeRefs_keeps (home levels : Nat) : ∀ tr vm visited,
    Keeps vm.globals (copyFreeRefs w home levels tr vm visited).1.globals := by
  induction levels with
  | zero => exact fun _ vm _ => .refl vm.globals
  | succ levels ih =>
    intro tr vm visited
    rw [copyFreeRefs]
    split
    · exact .refl _
    · split
      · exact .refl _
      · exact copyNames_keeps ih home _ vm _

/-- No value of the mapping is a macro. -/
def NoMacros (w : World) (m : Mapping) : Prop := ∀ n v, m n = some v → w.transformerAt v = none

theorem internDefine_room {limit : Nat} {env env' : Env} {n : Name} {v : Value}
    (defined : internDefine limit env n v = some env') :
    n ∈ env.map (·.name) ∨ env.length < limit := by
  unfold internDefine at defined
  obtain ⟨⟨interned, i⟩, found, -⟩ := Option.map_eq_some_iff.1 defined
  exact envIntern_room found

theorem assign_mono {m m' : Mapping} {n : Name} {v : Value} {pairs : List (Name × Value)}
    (more : ∀ v, m n = some v → m' n = some v) (held : assign m pairs n = some v) :
    assign m' pairs n = some v := by
  rw [assign_or] at held ⊢
  cases assigned : assign (fun _ => none) pairs n with
  | some u => rwa [assigned] at held
  | none =>
    rw [assigned, Option.none_or] at held
    exact more v held

/-- Merging assigns the pairs over the globals; only the helpers of a macro may come in
besides. -/
structure Merged (w : World) (pairs : List (Name × Value)) (g g' : Env) : Prop where
  nodup : (g'.map (·.name)).Nodup
  visible : ∀ n v, assign (valueOf g) pairs n = some v → valueOf g' n = some v
  exact : (∀ p ∈ pairs, w.transformerAt p.2 = none) → valueOf g' = assign (valueOf g) pairs

theorem mergeIntoGlobals_spec (home : Option Nat) (pairs : List (Name × Value)) :
    ∀ vm vm' : Vm, (vm.globals.map (·.name)).Nodup →
      mergeIntoGlobals w home pairs vm = (vm', none) → Merged w pairs vm.globals vm'.globals := by
  induction pairs with
  | nil =>
    intro vm vm' nodup done
    obtain ⟨rfl, -⟩ := Prod.mk.inj done
    exact ⟨nodup, fun _ _ held => held, fun _ => rfl⟩
  | cons p rest ih =>
    intro vm vm' nodup done
    simp only [mergeIntoGlobals] at done
    split at done
    · exact nomatch done
    rename_i globals defined
    obtain ⟨globals', defined', nodup', values, -⟩ :=
      internDefine_nodup _ p.2 nodup (internDefine_room defined)
    obtain rfl := Option.some.inj (defined.symm.trans defined')
    -- the rest of the loop starts from globals that keep those just written
    have continue_ : ∀ vm₁ : Vm, Keeps globals vm₁.globals →
        (w.transformerAt p.2 = none → vm₁.globals = globals) →
        mergeIntoGlobals w home rest vm₁ = (vm', none) →
          Merged w (p :: rest) vm.globals vm'.globals := by
      intro vm₁ keeps same done
      have later := ih vm₁ vm' (keeps.nodup nodup') done
      refine ⟨later.nodup, fun n v held => later.visible n v ?_, fun plain => ?_⟩
      · rw [assign_cons, ← values] at held
        exact assign_mono (keeps.kept nodup' n) held
      · rw [later.exact fun q mem => plain q (List.mem_cons_of_mem _ mem),
          same (plain p List.mem_cons_self), values, assign_cons]
    split at done
    · exact continue_ _ (.refl _) (fun _ => rfl) done
    rename_i tr isMacro
    have notPlain : ∀ vm₁ : Vm, w.transformerAt p.2 = none → vm₁.globals = globals := by
      intro vm₁ plain
      rw [isMacro] at plain
      exact nomatch plain
    split at done
    · exact nomatch done
    rename_i vm₁ macroDefined
    have sameGlobals : vm₁.globals = globals := defineMacroIn_globals macroDefined
    split at done
    · exact continue_ vm₁ (by rw [sameGlobals]; exact .refl _) (notPlain vm₁) done
    rename_i inner
    have copied := copyFreeRefs_keeps (w := w) inner 33 tr vm₁ []
    split at done
    · rename_i vm₂ visited result
      rw [result, sameGlobals] at copied
      exact continue_ vm₂ copied (notPlain vm₂) done
    · rename_i stop notNone result
      obtain ⟨rfl, rfl⟩ := Prod.mk.inj done
      exact (notNone rfl).elim

theorem copyNames_error {recurse : Nat → Vm → List Nat → Copied} {e : String}
    (deeper : ∀ tr vm visited, (recurse tr vm visited).2.2 ≠ some (.error e)) (home : Nat)
    (names : List Name) : ∀ vm visited,
      (copyNames w recurse home names vm visited).2.2 ≠ some (.error e) := by
  induction names with
  | nil => exact fun _ _ => nofun
  | cons name names ih =>
    intro vm visited
    simp only [copyNames]
    split
    · exact ih vm visited
    · rename_i val _
      have one : (copyOneDefEnvBinding w recurse home name val vm visited).2.2 ≠
          some (.error e) := by
        unfold copyOneDefEnvBinding
        split
        · split
          · exact deeper _ _ _
          · split
            · exact nofun
            · exact deeper _ _ _
        · split
          · exact nofun
          · split <;> exact nofun
      split
      · exact ih _ _
      · exact one

theorem copyFreeRefs_error {e : String} (home levels : Nat) : ∀ tr vm visited,
    (copyFreeRefs w home levels tr vm visited).2.2 ≠ some (.error e) := by
  induction levels with
  | zero => exact fun _ _ _ => nofun
  | succ levels ih =>
    intro tr vm visited
    rw [copyFreeRefs]
    split
    · exact nofun
    · split
      · exact nofun
      · exact copyNames_error ih home _ vm _

/-- Merging stops for full tables only. -/
theorem mergeIntoGlobals_error (home : Option Nat) (pairs : List (Name × Value)) (e : String) :
    ∀ vm : Vm, (mergeIntoGlobals w home pairs vm).2 ≠ some (.error e) := by
  induction pairs with
  | nil => exact fun _ => nofun
  | cons p rest ih =>
    intro vm
    simp only [mergeIntoGlobals]
    split
    · exact nofun
    split
    · exact ih _
    rename_i tr _
    split
    · exact nofun
    rename_i vm₁ _
    split
    · exact ih _
    rename_i inner _
    have copied := copyFreeRefs_error (w := w) (e := e) inner 33 tr vm₁ []
    split
    · exact ih _
    · rename_i result
      rw [result] at copied
      exact copied

/-- Later mappings over earlier ones over what was there before. -/
def overlay (base : Mapping) : List Mapping → Mapping
  | [] => base
  | m :: ms => overlay (fun n => (m n).or (base n)) ms

theorem overlay_mono {base base' : Mapping} {n : Name} {v : Value}
    (more : ∀ v, base n = some v → base' n = some v) (ms : List Mapping) :
    overlay base ms n = some v → overlay base' ms n = some v := by
  induction ms generalizing base base' with
  | nil => exact more v
  | cons m ms ih =>
    refine ih fun u held => ?_
    cases here : m n with
    | some x => simpa [here] using held
    | none =>
      rw [here, Option.none_or] at held
      rw [Option.none_or, more u held]

/-- The bindings of the sets `ms` are visible over those that were there. -/
structure Visible (w : World) (ms : List Mapping) (g g' : Env) : Prop where
  nodup : (g'.map (·.name)).Nodup
  visible : ∀ n v, overlay (valueOf g) ms n = some v → valueOf g' n = some v
  exact : (∀ m ∈ ms, NoMacros w m) → valueOf g' = overlay (valueOf g) ms

theorem processImportSet_spec (libraries : ∀ name lib, ensure name = .ok lib → lib.Sound)
    {s : ImportSet} (written : s.Written) (vm vm' : Vm) (nodup : (vm.globals.map (·.name)).Nodup) :
    (processImportSet w ensure s.datum vm = (vm', none) →
      ∃ m, Denotes ensure s m ∧ Visible w [m] vm.globals vm'.globals) ∧
    ∀ e, processImportSet w ensure s.datum vm = (vm', some (.error e)) →
      vm' = vm ∧ ∀ m, ¬ Denotes ensure s m := by
  have resolved := resolveImportSet_spec libraries s written
  unfold processImportSet
  cases found : resolveImportSet ensure s.datum [] with
  | error e =>
    rw [found] at resolved
    refine ⟨nofun, fun e stopped => ?_⟩
    exact ⟨(Prod.mk.inj stopped).1.symm, resolved⟩
  | ok env =>
    rw [found] at resolved
    obtain ⟨good, _, denotes⟩ := resolved
    refine ⟨fun done => ⟨_, denotes, ?_⟩, fun e stopped => ?_⟩
    · have merged := mergeIntoGlobals_spec _ _ vm vm' nodup done
      have spelled := assign_definedPairs good.nodup
      have same : assign (valueOf vm.globals) (definedPairs env) =
          overlay (valueOf vm.globals) [valueOf env] := by
        funext n
        rw [assign_or, spelled]
        rfl
      refine ⟨merged.nodup, fun n v held => merged.visible n v (by rwa [same]), fun plain => ?_⟩
      rw [← same]
      refine merged.exact fun p mem => plain (valueOf env) List.mem_cons_self p.1 p.2 ?_
      obtain ⟨b, inside, rfl⟩ := List.mem_map.1 mem
      obtain ⟨inside, defined⟩ := List.mem_filter.1 inside
      exact valueOf_of_mem good.nodup inside defined
    · have error := congrArg Prod.snd stopped
      exact absurd error (mergeIntoGlobals_error _ _ e vm)

/-- How far an import form has come. -/
def Reached (ensure : Datum → Except String Library) (sets : List ImportSet) (ms : List Mapping)
    (stop : Option Stop) : Prop :=
  List.Forall₂ (Denotes ensure) (sets.take ms.length) ms ∧
    match stop with
    | none => ms.length = sets.length
    | some _ => ∃ s, sets[ms.length]? = some s ∧ ∀ m, ¬ Denotes ensure s m

theorem importSets_spec (libraries : ∀ name lib, ensure name = .ok lib → lib.Sound)
    (sets : List ImportSet) : ∀ (vm vm' : Vm) (stop : Option Stop), (∀ s ∈ sets, s.Written) →
      (vm.globals.map (·.name)).Nodup →
      importSets w ensure (.list (sets.map ImportSet.datum)) vm = (vm', stop) →
      stop ≠ some .macroTableFull → stop ≠ some .globalTableFull →
        ∃ ms, Reached ensure sets ms stop ∧ Visible w ms vm.globals vm'.globals := by
  induction sets with
  | nil =>
    intro vm vm' stop _ nodup done _ _
    obtain ⟨rfl, rfl⟩ := Prod.mk.inj done
    exact ⟨[], ⟨.nil, rfl⟩, nodup, fun _ _ held => held, fun _ => rfl⟩
  | cons s sets ih =>
    intro vm vm' stop written nodup done room room'
    have spec := fun next => processImportSet_spec (w := w) libraries
      (written s List.mem_cons_self) vm next nodup
    simp only [List.map_cons, Datum.list, importSets] at done
    split at done
    · rename_i vm₁ first
      obtain ⟨m, denotes, visible⟩ := (spec vm₁).1 first
      obtain ⟨ms, ⟨all, ended⟩, later⟩ := ih vm₁ vm' stop
        (fun t mem => written t (List.mem_cons_of_mem _ mem)) visible.nodup done room room'
      refine ⟨m :: ms, ⟨.cons denotes all, ?_⟩, later.nodup, fun n v held => ?_, fun plain => ?_⟩
      · cases stop with
        | none => simpa using ended
        | some _ => simpa using ended
      · exact later.visible n v (overlay_mono (visible.visible n) ms held)
      · rw [later.exact fun m' mem => plain m' (List.mem_cons_of_mem _ mem),
          visible.exact fun m' mem => plain m' (by
            rw [List.mem_singleton.1 mem]
            exact List.mem_cons_self)]
        rfl
    · obtain ⟨message, rfl⟩ : ∃ message, stop = some (.error message) := by
        rename_i notNone
        cases stop with
        | none => exact (notNone _ done).elim
        | some stop =>
          cases stop with
          | error message => exact ⟨message, rfl⟩
          | macroTableFull => exact (room rfl).elim
          | globalTableFull => exact (room' rfl).elim
      obtain ⟨rfl, none⟩ := (spec vm').2 message done
      exact ⟨[], ⟨.nil, s, rfl, none⟩, nodup, fun _ _ held => held, fun _ => rfl⟩

theorem handleImport_list (sets : List Datum) (vm : Vm) :
    handleImport w ensure (.list sets) vm = importSets w ensure (.list sets) vm := by
  unfold handleImport
  cases sets with
  | nil => rfl
  | cons d sets =>
    simp only [Datum.list]
    split <;> simp_all

/-- Two libraries, `(a)` with `x` and `(b)` with `y`. -/
def twoLibraries : Datum → Except String Library
  | .pair (.symbol n) .nil =>
    if n = ascii "a" then .ok ⟨[(ascii "x", .fixnum 1)], none⟩
    else if n = ascii "b" then .ok ⟨[(ascii "y", .fixnum 2)], none⟩
    else .error "library not found"
  | _ => .error "library not found"

theorem twoLibraries_sound (name : Datum) (lib : Library) (found : twoLibraries name = .ok lib) :
    lib.Sound := by
  unfold twoLibraries at found
  split at found
  · split at found
    · obtain rfl := Except.ok.inj found
      exact ⟨by decide, by decide⟩
    · split at found
      · obtain rfl := Except.ok.inj found
        exact ⟨by decide, by decide⟩
      · exact nomatch found
  · exact nomatch found

def emptyWorld : World := ⟨fun _ => none, fun _ => []⟩

def setOf (lib : String) : ImportSet := .library (.pair (.symbol (ascii lib)) .nil)

theorem setOf_written (lib : String) (plain : basename (ascii lib) ∉
    [ascii "only", ascii "except", ascii "prefix", ascii "rename"]) : (setOf lib).Written := plain

end Chaaya.Import
