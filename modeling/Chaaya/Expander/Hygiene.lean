import Chaaya.Expander.Output
import Chaaya.Expander.Table
import Chaaya.Transition

/-! Hygiene of `syntax-rules`. The identifiers that the template introduces get names with a
number of the counter, and no identifier that stood in the program before has that number. -/

namespace Chaaya.Expander

open Form

/-! ### Numbered names -/

theorem decimal_injective {n k : Nat} (same : decimal n = decimal k) : n = k := by
  have digits : Nat.toDigits 10 n = Nat.toDigits 10 k :=
    (List.map_inj_right fun _ _ => Char.toNat_inj.mp).mp same
  have values := congrArg (fun cs => Nat.ofDigitChars 10 cs 0) digits
  simpa using values

theorem decimal_digits {n : Nat} : ∀ c ∈ decimal n, digitByte c = true := by
  intro c mem
  simp only [decimal, List.mem_map] at mem
  obtain ⟨d, mem, rfl⟩ := mem
  have digit := Nat.isDigit_of_mem_toDigits (by decide) (by decide) mem
  simpa [Char.isDigit, digitByte, UInt32.le_iff_toNat_le] using digit

theorem length_decimal {n : Nat} (small : n < 2 ^ 32) : (decimal n).length ≤ 10 := by
  rw [decimal, List.length_map, Nat.length_toDigits_le_iff (by decide) (by decide)]
  omega

/-- The name begins `__hyg_<n>_`. -/
def Numbered (n : Nat) (name : Name) : Prop := ∃ rest, name = hygPrefix ++ decimal n ++ 95 :: rest

theorem Numbered.digits {n : Nat} {name : Name} (numbered : Numbered n name) :
    (name.drop 6).takeWhile digitByte = decimal n := by
  obtain ⟨rest, rfl⟩ := numbered
  have cut : (hygPrefix ++ decimal n ++ 95 :: rest).drop 6 = decimal n ++ 95 :: rest := by
    rw [List.append_assoc]
    rfl
  rw [cut, List.takeWhile_append_of_pos decimal_digits]
  simp [digitByte]

theorem Numbered.unique {n k : Nat} {name : Name} (first : Numbered n name)
    (second : Numbered k name) : n = k :=
  decimal_injective (first.digits.symm.trans second.digits)

theorem numbered_hygName {n : Nat} (small : n < 2 ^ 32) (base : Name) :
    Numbered n (hygName n base) := by
  have short : (hygPrefix ++ decimal n).length ≤ 254 := by
    have digits := length_decimal small
    simp only [List.length_append, hygPrefix, List.length_cons, List.length_nil]
    omega
  obtain ⟨room, eq⟩ := Nat.exists_eq_add_of_le short
  refine ⟨base.take room, ?_⟩
  rw [hygName, cut, show 255 = (hygPrefix ++ decimal n).length + (room + 1) by omega,
    List.take_length_add_append, List.take_succ_cons]

theorem not_numbered_hygLibName {address n : Nat} {base : Name} :
    ¬Numbered n (hygLibName address base) := by
  rintro ⟨rest, eq⟩
  have letter : ((hygLibName address base).drop 6).head? = some 108 := by
    rw [hygLibName, cut]
    rfl
  rw [eq, List.append_assoc] at letter
  have digit : ((decimal n) ++ 95 :: rest).head? = some 108 := letter
  cases digits : decimal n with
  | nil => simp [digits] at digit
  | cons d ds =>
    have first := decimal_digits (n := n) d (by simp [digits])
    rw [digits] at digit
    cases digit
    simp [digitByte] at first

/-! ### One expansion -/

variable {α : Type} {tr : Transformer α}

/-- The name that the table gives in the end, for what has been asked for. -/
noncomputable def finalName (tr : Transformer α) (st : Expansion) (s : Name) : Name :=
  open Classical in if Asked tr st s then (introduce tr s st).1 else s

theorem finalName_reads {st₀ st : Expansion} : Reads tr st₀ st (finalName tr st) :=
  fun s _ asked => by rw [finalName, if_pos asked]

/-- A name of the table is the counter's. -/
theorem Later.entry {st st' : Expansion} (later : Later st st') (empty : st.renames = [])
    {r : Name × Name} (mem : r ∈ st'.renames) :
    ∃ i < st'.renames.length, r.2 = hygName (st.vm.hygCounter + UInt32.ofNat i).toNat
      (basename r.1) := by
  obtain ⟨more, renames, -, named⟩ := later.made
  rw [empty, List.nil_append] at renames
  rw [renames] at mem ⊢
  obtain ⟨i, here, eq⟩ := List.mem_iff_getElem.mp mem
  exact ⟨i, here, named i r (by rw [List.getElem?_eq_getElem here, eq])⟩

theorem hygRename_entry {st : Expansion} {s : Name} (asked : Asked tr st s)
    (unkept : Unkept tr st.vm s) :
    (∃ r ∈ st.renames, basename r.1 = basename s ∧ hygRename s st = (r.2, st)) ∨
      hygRename s st = (s, st) ∧ hygMax ≤ st.renames.length := by
  cases found : renameOf st s with
  | some r =>
    simp only [renameOf] at found
    have same : basename r.1 = basename s := by simpa using List.find?_some found
    exact .inl ⟨r, List.mem_of_find?_eq_some found, same, by simp only [hygRename, found]⟩
  | none =>
    rcases asked unkept with ⟨r, here⟩ | many
    · cases found.symm.trans here
    · simp only [renameOf] at found
      exact .inr ⟨by simp only [hygRename, found, if_pos many], many⟩

/-- An identifier that no exception keeps gets a name of the counter, unless the table is
full. -/
theorem finalName_fresh {st st' : Expansion} {s : Name} (later : Later st st')
    (empty : st.renames = []) (steady : Steady st.vm s) (asked : Asked tr st' s)
    (unkept : Unkept tr st.vm s) (room : st'.renames.length < hygMax) :
    ∃ i < st'.renames.length, finalName tr st' s =
      hygName (st.vm.hygCounter + UInt32.ofNat i).toNat (basename s) := by
  have still := unkept.later later steady
  rw [finalName, if_pos asked, still.introduce]
  rcases hygRename_entry asked still with ⟨r, mem, same, answer⟩ | ⟨-, many⟩
  · obtain ⟨i, less, named⟩ := later.entry empty mem
    exact ⟨i, less, by rw [answer, named, same]⟩
  · omega

/-- The names that an expansion gives: the identifier's own, one that a capture puts in its
place, a reference to the library environment, or a name of the counter. -/
theorem finalName_cases {st st' : Expansion} {s : Name} (later : Later st st')
    (empty : st.renames = []) :
    finalName tr st' s = s ∨ (∃ c ∈ tr.captures, finalName tr st' s = c.2) ∨
      (∃ address base, finalName tr st' s = hygLibName address base) ∨
      ∃ i < st'.renames.length, ∃ base, finalName tr st' s =
        hygName (st.vm.hygCounter + UInt32.ofNat i).toNat base := by
  rw [finalName]
  split
  · rename_i asked
    by_cases unkept : Unkept tr st'.vm s
    · rw [unkept.introduce]
      rcases hygRename_entry asked unkept with ⟨r, mem, -, answer⟩ | ⟨answer, -⟩
      · obtain ⟨i, less, named⟩ := later.entry empty mem
        exact .inr (.inr (.inr ⟨i, less, _, by rw [answer, named]⟩))
      · exact .inl (by rw [answer])
    · unfold introduce
      split
      · exact .inl rfl
      · rename_i listed
        split
        · split
          · exact .inl rfl
          · rw [bindLibRef]
            split
            · exact .inl rfl
            · exact .inr (.inr (.inl ⟨_, _, rfl⟩))
        · rename_i library
          split
          · exact .inl rfl
          · rename_i ellipsis
            split
            · rename_i c captured
              exact .inr (.inl ⟨c, List.mem_of_find?_eq_some captured, rfl⟩)
            · rename_i captured
              split
              · rename_i free
                simp only [Bool.or_eq_true, not_or, Bool.not_eq_true] at listed ellipsis
                exact absurd ⟨listed.1, listed.2, library, ellipsis, captured, fun here =>
                  here free⟩ unkept
              · exact .inl rfl
  · exact .inl rfl

variable [Datum α]

theorem expandMacro_spec {vm : Vm} {home : Option LibEnv} {resolve : Option (Name → Nat)}
    {use out : Form α} {after : Expansion}
    (expands : expandMacro vm home tr resolve use = some (out, after)) :
    ∃ keyword pat name operands tmpl binds st', use = pair name operands ∧
      (pair keyword pat, tmpl) ∈ tr.rules ∧
      matchList ⟨vm.inside home, tr, resolve⟩ pat operands false [] = (true, binds) ∧
      instantiate tr (introduce tr) false false binds tmpl ⟨vm.inside home, []⟩ = (out, st') ∧
      after = { st' with vm := { st'.vm with activeLibEnv := vm.activeLibEnv } } := by
  obtain ⟨⟨pat, tmpl⟩, mem, eq⟩ := List.exists_of_findSome?_eq_some expands
  dsimp only at eq
  split at eq
  · rename_i keyword pat name operands
    split at eq
    · rename_i binds matched
      cases run : instantiate tr (introduce tr) false false binds tmpl ⟨vm.inside home, []⟩ with
      | mk out' st' =>
        rw [run] at eq
        cases eq
        exact ⟨keyword, pat, name, operands, tmpl, binds, st', rfl, mem, matched, run, rfl⟩
    · cases eq
  · cases eq

omit [Datum α] in
theorem inside_hygCounter (vm : Vm) (home : Option LibEnv) :
    (vm.inside home).hygCounter = vm.hygCounter := by
  cases home <;> rfl

/-! ### The names of the bound forms -/

section

omit [Datum α]

variable {P : Name → Prop}

theorem AllBound.snoc {binds : List (Binding α)} {b : Binding α} (all : AllBound P binds)
    (one : AllNames P b.value) : AllBound P (binds ++ [b]) := by
  intro c mem
  rcases List.mem_append.mp mem with mem | mem
  · exact all c mem
  · cases List.mem_singleton.mp mem
    exact one

theorem AllBound.update {binds : List (Binding α)} {v : Name} {f : Binding α → Binding α}
    (all : AllBound P binds) (keeps : ∀ b, AllNames P b.value → AllNames P (f b).value) :
    AllBound P (updateBind v f binds) := by
  induction binds with
  | nil => exact nofun
  | cons b rest ih =>
    rw [AllBound, List.forall_mem_cons] at all
    rw [updateBind]
    split
    · exact List.forall_mem_cons.mpr ⟨keeps b all.1, all.2⟩
    · exact List.forall_mem_cons.mpr ⟨all.1, ih all.2⟩

theorem AllNames.listReverse_go {u rev : Form α} (all : AllNames P u) (seen : AllNames P rev) :
    AllNames P (listReverse.go u rev) := by
  fun_induction listReverse.go u rev with
  | case1 x rest rev ih =>
    obtain ⟨first, others⟩ := allNames_pair.mp all
    exact ih others (allNames_pair.mpr ⟨first, seen⟩)
  | case2 => exact seen

theorem AllNames.listReverse {u : Form α} (all : AllNames P u) : AllNames P u.listReverse :=
  all.listReverse_go allNames_nil

theorem bindVar_bound {binds : List (Binding α)} {val : Form α} (s : Name) (under : Bool)
    (one : AllNames P val) (all : AllBound P binds) : AllBound P (bindVar binds s val under).2 := by
  rw [bindVar.eq_def]
  split
  · exact all
  · split
    · split
      · exact all
      · exact all.update fun b known => allNames_pair.mpr ⟨one, known⟩
    · split
      · exact all
      · exact all.snoc (allNames_pair.mpr ⟨one, allNames_nil⟩)
    · exact all
    · split
      · exact all
      · exact all.snoc one

theorem declareEllipsis_bound {binds : List (Binding α)} (vs : List Name)
    (all : AllBound P binds) : AllBound P (declareEllipsis vs binds).2 := by
  induction vs generalizing binds with
  | nil => exact all
  | cons v vs ih =>
    rw [declareEllipsis]
    split
    · exact all
    · split
      · exact all
      · exact ih (all.snoc allNames_nil)

theorem reverseFrom_bound {binds : List (Binding α)} (base : Nat) (all : AllBound P binds) :
    AllBound P (reverseFrom base binds) := by
  intro b mem
  rcases List.mem_append.mp mem with mem | mem
  · exact all b (List.mem_of_mem_take mem)
  · obtain ⟨c, inside, rfl⟩ := List.mem_map.mp mem
    have known := all c (List.mem_of_mem_drop inside)
    split
    · exact known
    · exact known.listReverse

theorem gather_bound {sub binds : List (Binding α)} (base : Nat) (made : AllBound P sub)
    (all : AllBound P binds) : AllBound P (gather base sub binds) := by
  induction sub generalizing binds with
  | nil => exact all
  | cons b sub ih =>
    rw [AllBound, List.forall_mem_cons] at made
    rw [gather, List.foldl_cons]
    refine ih made.2 fun c mem => ?_
    rcases List.mem_append.mp mem with mem | mem
    · exact all c (List.mem_of_mem_take mem)
    · refine AllBound.update (P := P) (fun c mem => all c (List.mem_of_mem_drop mem)) ?_ c mem
      exact fun c known => allNames_pair.mpr ⟨made.1, known⟩

/-- The forms that the variables of a pattern stand for consist of names of the use form. -/
theorem allBound_keeps (P : Name → Prop) : TableInvariant (AllNames P) (AllBound (α := α) P) where
  head good := (allNames_pair.mp good).1
  tail good := (allNames_pair.mp good).2
  items good := allNames_ofList.mpr (allNames_vector.mp good)
  empty := nofun
  cut _ all := fun b mem => all b (List.mem_of_mem_take mem)
  bind s under good all := bindVar_bound s under good all
  declare vs all := declareEllipsis_bound vs all
  reverse base all := reverseFrom_bound base all
  gather base made all := gather_bound base made all

end

/-! ### Runs -/

/-- A program as it is expanded: the names it consists of so far, and how many numbers the
counter has given out. -/
structure Session where
  vm : Vm
  names : List Name
  taken : Nat

inductive Action (α : Type)
  /-- Source text is read, definitions come and go, other code takes numbers for names of
  another form. -/
  | other (names : List Name) (vm : Vm) (numbers : Nat)
  | expand (home : Option LibEnv) (tr : Transformer α) (resolve : Option (Name → Nat))
    (use : Form α)

/-- The macro use consists of names of the program. -/
structure Ready (session : Session) (home : Option LibEnv) (tr : Transformer α) (use : Form α) :
    Prop where
  templates : ∀ rule ∈ tr.rules, ∀ s ∈ rule.2.symbols,
    s ∈ session.names ∧ Steady (session.vm.inside home) s
  captures : ∀ c ∈ tr.captures, c.2 ∈ session.names
  use : ∀ s ∈ use.symbols, s ∈ session.names

def Step (session : Session) : Action α → Session → Prop
  | .other names vm numbers, next =>
    (∀ s ∈ names, ∀ n, ¬Numbered n s) ∧
      vm.hygCounter = session.vm.hygCounter + UInt32.ofNat numbers ∧
      next = ⟨vm, names ++ session.names, session.taken + numbers⟩
  | .expand home tr resolve use, next =>
    Ready session home tr use ∧ ∃ out after,
      expandMacro session.vm home tr resolve use = some (out, after) ∧
      next = ⟨after.vm, out.symbols ++ session.names, session.taken + after.renames.length⟩

/-- The counter stands behind every number in the program. -/
structure Ahead (session : Session) : Prop where
  counter : session.vm.hygCounter = UInt32.ofNat session.taken
  numbers : session.taken ≤ 2 ^ 32 → ∀ s ∈ session.names, ∀ n, Numbered n s → n < session.taken

theorem ofNat_toNat {n : Nat} (small : n < 2 ^ 32) : (UInt32.ofNat n).toNat = n := by
  rw [UInt32.toNat_ofNat', Nat.mod_eq_of_lt small]

/-- The names of an expansion are names of the program or carry a number just taken. -/
theorem Ahead.expand {session : Session} {home : Option LibEnv} {resolve : Option (Name → Nat)}
    {use out : Form α} {after : Expansion} (ahead : Ahead session)
    (ready : Ready session home tr use)
    (expands : expandMacro session.vm home tr resolve use = some (out, after))
    (room : session.taken + after.renames.length ≤ 2 ^ 32) :
    ∀ s ∈ out.symbols, ∀ n, Numbered n s → n < session.taken + after.renames.length := by
  obtain ⟨keyword, pat, name, operands, tmpl, binds, st', rfl, mem, matched, run, rfl⟩ :=
    expandMacro_spec expands
  dsimp only at room ⊢
  let P (s : Name) : Prop := ∀ n, Numbered n s → n < session.taken + st'.renames.length
  have known : ∀ s ∈ session.names, P s := fun s mem n numbered =>
    Nat.lt_add_right _ (ahead.numbers (by omega) s mem n numbered)
  have later : Later ⟨session.vm.inside home, []⟩ (instantiate tr (introduce tr) false false binds
    tmpl ⟨session.vm.inside home, []⟩).2 := instantiate_later
  rw [run] at later
  obtain ⟨names, eq, -⟩ := instantiate_run (fun s mem' => (ready.templates _ mem s mem').2) run
    finalName_reads
  have output : (instantiate tr (noted (finalName tr st')) false false binds tmpl []).1 =
      (instantiate tr (renamed (finalName tr st')) false false binds tmpl).run := noted_renamed []
  rw [eq] at output
  have bounds : AllBound P binds := by
    have fresh : AllNames P operands := fun s mem =>
      known s (ready.use s (List.mem_append_right _ mem))
    have all := (allBound_keeps P).list ⟨session.vm.inside home, tr, resolve⟩ pat false fresh
      (allBound_keeps P).empty
    rw [matched] at all
    exact all
  have given : AllNames (fun s => P s ∧ P (finalName tr st' s)) tmpl := by
    intro s mem'
    have own := known s (ready.templates _ mem s mem').1
    refine ⟨own, ?_⟩
    rcases @finalName_cases _ tr _ _ s later rfl with same | ⟨c, captured, same⟩ | same | same
    · rw [same]
      exact own
    · rw [same]
      exact known _ (ready.captures c captured)
    · obtain ⟨address, base, same⟩ := same
      rw [same]
      exact fun n numbered => absurd numbered not_numbered_hygLibName
    · obtain ⟨i, less, base, same⟩ := same
      dsimp only at less
      rw [same, inside_hygCounter, ahead.counter, ← UInt32.ofNat_add, ofNat_toNat (by omega)]
      intro n numbered
      have := numbered.unique (numbered_hygName (by omega) base)
      omega
  dsimp only at output
  rw [output]
  exact instantiate_names tmpl given bounds

theorem Ahead.step {session next : Session} {action : Action α} (ahead : Ahead session)
    (move : Step session action next) : Ahead next := by
  cases action with
  | other names vm numbers =>
    obtain ⟨plain, counter, rfl⟩ := move
    refine ⟨by rw [counter, ahead.counter, ← UInt32.ofNat_add], fun room s mem n numbered => ?_⟩
    rcases List.mem_append.mp mem with mem | mem
    · exact absurd numbered (plain s mem n)
    · exact Nat.lt_add_right _ (ahead.numbers (by dsimp only at room; omega) s mem n numbered)
  | expand home tr resolve use =>
    obtain ⟨ready, out, after, expands, rfl⟩ := move
    have counter : after.vm.hygCounter =
        session.vm.hygCounter + UInt32.ofNat after.renames.length := by
      obtain ⟨keyword, pat, name, operands, tmpl, binds, st', rfl, mem, matched, run, rfl⟩ :=
        expandMacro_spec expands
      have later : Later ⟨session.vm.inside home, []⟩ (instantiate tr (introduce tr) false false
        binds tmpl ⟨session.vm.inside home, []⟩).2 := instantiate_later
      rw [run] at later
      obtain ⟨more, renames, counter, -⟩ := later.made
      rw [List.nil_append] at renames
      rw [inside_hygCounter] at counter
      dsimp only
      rw [counter, renames]
    refine ⟨by rw [counter, ahead.counter, ← UInt32.ofNat_add], fun room s mem n numbered => ?_⟩
    dsimp only at room
    rcases List.mem_append.mp mem with mem | mem
    · exact ahead.expand ready expands room s mem n numbered
    · exact Nat.lt_add_right _ (ahead.numbers (by omega) s mem n numbered)

/-- `(syntax-rules () ((m a) (lambda (t) a)))` -/
def bindingMacro : Transformer Empty where
  literals := []
  literalBound := []
  ellipsisId := none
  captures := []
  rules := [(ofList [symbol (bytes "m"), symbol (bytes "a")],
    ofList [symbol (bytes "lambda"), ofList [symbol (bytes "t")], symbol (bytes "a")])]

/-- `(m t)` -/
def bindingUse : Form Empty := ofList [symbol (bytes "m"), symbol (bytes "t")]

theorem bindingMacro_matches (vm : Vm) :
    matchList ⟨vm, bindingMacro, none⟩ (ofList [symbol (bytes "a")]) (ofList [symbol (bytes "t")])
      false [] = (true, [⟨bytes "a", symbol (bytes "t"), 0⟩]) := by
  have literal : isLiteral bindingMacro (bytes "a") = false := by decide
  have plain : isUnderscorePat bindingMacro (bytes "a") = false := by decide
  have one : bindVar [] (bytes "a") (symbol (bytes "t") : Form Empty) false =
      (true, [⟨bytes "a", symbol (bytes "t"), 0⟩]) := by rfl
  simp [ofList, matchList, matchElements, matchPattern, takePatternEscape, ellipsisAfter,
    isUnderscore, isNil, literal, plain, one]

section Binding

variable {tr : Transformer Empty} {f : Name → StateM Expansion Name} {binds : List (Binding Empty)}

/-- A list that begins with an ordinary identifier. -/
theorem instantiateList_symbol {s : Name} {rest : Form Empty} (plain : basename s ≠ ellipsisName)
    (unquoted : isNamed "quote" (symbol s : Form Empty) = false)
    (single : ellipsisAfter tr rest = none) :
    instantiateList tr f false false binds (pair (symbol s) rest) = (do
      let car ← instantiate tr f false false binds (symbol s)
      let cdr ← instantiateList tr f false false binds rest
      pure (pair car cdr)) := by
  have whole : takeEscape false (pair (symbol s) rest) = none := by
    unfold takeEscape takePatternEscape
    split
    · rfl
    · split
      · rename_i here
        cases here
        exact if_neg plain
      · rfl
  have quoted : takeQuote (pair (symbol s) rest) = none := by
    unfold takeQuote
    split
    · rename_i here
      cases here
      rw [unquoted, if_neg Bool.false_ne_true]
    · rfl
  exact instantiateList_pair whole quoted rfl (by rw [takeEllipsis, single]; rfl)

/-- `(lambda (t) a)`, where `a` is bound to `x` and the others are introduced. -/
theorem instantiate_binding {lambda_ t a x name : Name} {st st' : Expansion}
    (plain : ∀ s ∈ [lambda_, t, a], basename s ≠ ellipsisName ∧
      isNamed "quote" (symbol s : Form Empty) = false ∧ isEllipsisId tr s = false)
    (rules : isNamed "syntax-rules" (symbol lambda_ : Form Empty) = false ∧
      isNamed "syntax-rules" (symbol t : Form Empty) = false)
    (vars : findBind binds lambda_ = none ∧ findBind binds t = none ∧
      findBind binds a = some ⟨a, symbol x, 0⟩)
    (keyword : f lambda_ st = (lambda_, st)) (binder : f t st = (name, st')) :
    instantiate tr f false false binds (ofList [symbol lambda_, ofList [symbol t], symbol a]) st =
      (ofList [symbol lambda_, ofList [symbol name], symbol x], st') := by
  have plainL := plain lambda_ (by simp only [List.mem_cons, true_or])
  have plainT := plain t (by simp only [List.mem_cons, true_or, or_true])
  have plainA := plain a (by simp only [List.mem_cons, true_or, or_true])
  have first : instantiate tr f false false binds (symbol lambda_) st = (symbol lambda_, st) := by
    simp only [instantiate, vars.1, Bool.false_eq_true, if_false, bind, StateT.bind, keyword]
    rfl
  have second : instantiate tr f false false binds (symbol t) st = (symbol name, st') := by
    simp only [instantiate, vars.2.1, Bool.false_eq_true, if_false, bind, StateT.bind, binder]
    rfl
  have third : instantiate tr f false false binds (symbol a) st' = (symbol x, st') := by
    simp only [instantiate, vars.2.2]
    rfl
  have parameters : instantiate tr f false false binds (pair (symbol t) nil) st =
      (pair (symbol name) nil, st') := by
    rw [instantiate, rules.2, if_neg Bool.false_ne_true,
      instantiateList_symbol plainT.1 plainT.2.1 rfl]
    simp only [bind, StateT.bind, second, instantiateList]
    rfl
  have body : instantiateList tr f false false binds (pair (symbol a) nil) st' =
      (pair (symbol x) nil, st') := by
    rw [instantiateList_symbol plainA.1 plainA.2.1 rfl]
    simp only [bind, StateT.bind, third, instantiateList]
    rfl
  have single : ellipsisAfter tr (pair (symbol a) nil) = none := by
    rw [ellipsisAfter, plainA.2.2, if_neg Bool.false_ne_true]
  have tail : instantiateList tr f false false binds
      (pair (pair (symbol t) nil) (pair (symbol a) nil)) st =
      (pair (pair (symbol name) nil) (pair (symbol x) nil), st') := by
    have esc : takeEscape false (pair (symbol t) nil : Form Empty) = none := rfl
    rw [instantiateList_pair rfl rfl esc (by rw [takeEllipsis, single]; rfl)]
    simp only [bind, StateT.bind, parameters, body]
    rfl
  simp only [ofList]
  rw [instantiate, rules.1, if_neg Bool.false_ne_true,
    instantiateList_symbol plainL.1 plainL.2.1 rfl]
  simp only [bind, StateT.bind, first, tail]
  rfl

end Binding

theorem bindingMacro_expands (vm : Vm) {name : Name} {st : Expansion}
    (keyword : introduce bindingMacro (bytes "lambda") ⟨vm, []⟩ = (bytes "lambda", ⟨vm, []⟩))
    (binder : introduce bindingMacro (bytes "t") ⟨vm, []⟩ = (name, st)) :
    expandMacro vm none bindingMacro none bindingUse =
      some (ofList [symbol (bytes "lambda"), ofList [symbol name], symbol (bytes "t")],
        { st with vm := { st.vm with activeLibEnv := vm.activeLibEnv } }) := by
  have run : instantiate bindingMacro (introduce bindingMacro) false false
      [⟨bytes "a", symbol (bytes "t"), 0⟩]
      (ofList [symbol (bytes "lambda"), ofList [symbol (bytes "t")], symbol (bytes "a")])
      ⟨vm, []⟩ =
      (ofList [symbol (bytes "lambda"), ofList [symbol name], symbol (bytes "t")], st) :=
    instantiate_binding (by decide) (by decide) ⟨by decide, by decide, rfl⟩ keyword binder
  have matched : matchList ⟨vm.inside none, bindingMacro, none⟩ (ofList [symbol (bytes "a")])
      (ofList [symbol (bytes "t")]) false [] = (true, [⟨bytes "a", symbol (bytes "t"), 0⟩]) :=
    bindingMacro_matches vm
  have rules : bindingMacro.rules = [(pair (symbol (bytes "m")) (ofList [symbol (bytes "a")]),
      ofList [symbol (bytes "lambda"), ofList [symbol (bytes "t")], symbol (bytes "a")])] := rfl
  have use : bindingUse = pair (symbol (bytes "m")) (ofList [symbol (bytes "t")]) := rfl
  rw [expandMacro, rules, use, List.findSome?_cons]
  dsimp only
  rw [matched]
  dsimp only [Vm.inside]
  rw [run]

theorem bytes_inj {a b : String} : bytes a = bytes b ↔ a = b := by
  rw [bytes, bytes, List.map_inj_right fun _ _ same => Char.toNat_inj.mp same, String.toList_inj]

theorem isWellKnown_bytes {s : String} : isWellKnown (bytes s) = true ↔ s ∈ wellKnownNames := by
  simp only [isWellKnown, List.any_eq_true, beq_iff_eq, bytes_inj, exists_eq_right]

theorem introduce_lambda (vm : Vm) :
    introduce bindingMacro (bytes "lambda") ⟨vm, []⟩ = (bytes "lambda", ⟨vm, []⟩) := by
  have plain : basename (bytes "lambda") = bytes "lambda" := by decide
  have known : isWellKnown (basename (bytes "lambda")) = true := by
    rw [plain, isWellKnown_bytes]
    simp only [wellKnownNames, List.mem_cons, true_or, or_true]
  rw [introduce, known, Bool.or_true, if_pos rfl]

/-- The binder is no keyword, so the VM decides. -/
theorem introduce_binder (vm : Vm) (outside : vm.activeLibEnv = none) :
    introduce bindingMacro (bytes "t") ⟨vm, []⟩ =
      if globalBindingSlot vm (bytes "t") = literalUnbound then hygRename (bytes "t") ⟨vm, []⟩
      else (bytes "t", ⟨vm, []⟩) := by
  have plain : basename (bytes "t") = bytes "t" := by decide
  have unknown : isWellKnown (basename (bytes "t")) = false := by
    rw [plain, Bool.eq_false_iff, ne_eq, isWellKnown_bytes]
    simp [wellKnownNames]
  have unbound : libEnvBinding vm (bytes "t") = none := by rw [libEnvBinding, outside]
  have single : isEllipsisId bindingMacro (bytes "t") = false := by decide
  have free : isLiteral bindingMacro (bytes "t") = false := rfl
  rw [introduce, unknown, free, Bool.or_false, if_neg Bool.false_ne_true, unbound, single]
  rfl

end Chaaya.Expander
