import Chaaya.Effects
import Chaaya.Mapping.Balance

/-! Programs that make mappings from mappings, beside the same programs on sorted association
lists. -/

namespace Chaaya.Mapping

open AssocList

variable {κ β γ : Type}

/-! ### Association lists -/

section Lists

variable (cmp : Comparator κ)

def setAll (al args : List (κ × β)) : List (κ × β) :=
  args.foldl (fun al p => set cmp p.1 p.2 al) al

def adjoinAll (al args : List (κ × β)) : List (κ × β) :=
  args.foldl (fun al p => adjoin cmp p.1 p.2 al) al

def present (al : List (κ × β)) (key : κ) : Bool := (lookup cmp key al).isSome

def replaceList (al : List (κ × β)) (key : κ) (val : β) : List (κ × β) :=
  if present cmp al key then set cmp key val al else al

def deleteAll (al : List (κ × β)) (keys : List κ) : List (κ × β) :=
  keys.foldl (fun al key => delete cmp key al) al

def unionList (al : List (κ × β)) (rest : List (List (κ × β))) : List (κ × β) :=
  rest.foldl (adjoinAll cmp) al

def intersectionList (al : List (κ × β)) (rest : List (List (κ × β))) : List (κ × β) :=
  al.filter fun p => rest.all fun other => present cmp other p.1

def differenceList (al : List (κ × β)) (rest : List (List (κ × β))) : List (κ × β) :=
  al.filter fun p => !rest.any fun other => present cmp other p.1

def xorList (al₁ al₂ : List (κ × β)) : List (κ × β) :=
  setAll cmp (al₁.filter fun p => !present cmp al₂ p.1) (al₂.filter fun p => !present cmp al₁ p.1)

def updateList {m : Type → Type} [Monad m] (al : List (κ × β)) (key : κ) (updater : β → m β)
    (failure : m β) (success : β → m β) : m (List (κ × β)) := do
  let v ← match lookup cmp key al with
    | some entry => success entry.2
    | none => failure
  let new ← updater v
  pure (set cmp key new al)

/-- The greatest key less than `obj`. -/
def predecessor (al : List (κ × β)) (obj : κ) : Option κ :=
  ((al.filter fun p => cmp.lt p.1 obj).getLast?).map Prod.fst

/-- The least key greater than `obj`. -/
def successor (al : List (κ × β)) (obj : κ) : Option κ :=
  ((al.filter fun p => cmp.lt obj p.1).head?).map Prod.fst

end Lists

variable {cmp : Comparator κ}

/-! ### Single operations -/

/-- The tree is a search tree with the entries of the list. -/
structure Shows (cmp : Comparator κ) (t : Tree κ β) (al : List (κ × β)) : Prop where
  search : Search cmp t
  entries : t.toList = al

theorem Shows.sorted {t : Tree κ β} {al : List (κ × β)} (shows : Shows cmp t al) : Sorted cmp al :=
  shows.entries ▸ search_iff.mp shows.search

theorem Shows.of_sorted {t : Tree κ β} {al : List (κ × β)} (entries : t.toList = al)
    (sorted : Sorted cmp al) : Shows cmp t al :=
  ⟨search_iff.mpr (entries ▸ sorted), entries⟩

theorem Shows.empty : Shows cmp (.empty : Tree κ β) [] := ⟨trivial, rfl⟩

theorem Shows.lookup {t : Tree κ β} {al : List (κ × β)} (shows : Shows cmp t al) (key : κ) :
    rbtLookup cmp key t = lookup cmp key al := by
  rw [rbtLookup_eq shows.search, shows.entries]

theorem Shows.insert {t : Tree κ β} {al : List (κ × β)} (shows : Shows cmp t al) (key : κ)
    (val : β) : Shows cmp (rbtInsert cmp t key val) (set cmp key val al) :=
  .of_sorted (by rw [toList_rbtInsert shows.search, shows.entries]) (shows.sorted.set key val)

theorem Shows.adjoin {t : Tree κ β} {al : List (κ × β)} (shows : Shows cmp t al) (key : κ)
    (val : β) : Shows cmp (rbtAdjoin cmp t key val) (adjoin cmp key val al) :=
  .of_sorted (by rw [toList_rbtAdjoin shows.search, shows.entries]) (shows.sorted.adjoin key val)

theorem Shows.delete {t : Tree κ β} {al : List (κ × β)} (shows : Shows cmp t al) (key : κ) :
    Shows cmp (rbtDelete cmp t key) (delete cmp key al) :=
  .of_sorted (by rw [toList_rbtDelete shows.search, shows.entries]) (shows.sorted.filter _)

theorem Shows.setAll {t : Tree κ β} {al : List (κ × β)} (shows : Shows cmp t al)
    (args : List (κ × β)) : Shows cmp (mappingSet cmp t args) (setAll cmp al args) := by
  induction args generalizing t al with
  | nil => exact shows
  | cons p args ih => exact ih (shows.insert p.1 p.2)

theorem Shows.adjoinAll {t : Tree κ β} {al : List (κ × β)} (shows : Shows cmp t al)
    (args : List (κ × β)) : Shows cmp (mappingAdjoin cmp t args) (adjoinAll cmp al args) := by
  induction args generalizing t al with
  | nil => exact shows
  | cons p args ih => exact ih (shows.adjoin p.1 p.2)

theorem Shows.deleteAll {t : Tree κ β} {al : List (κ × β)} (shows : Shows cmp t al)
    (keys : List κ) : Shows cmp (mappingDelete cmp t keys) (deleteAll cmp al keys) := by
  induction keys generalizing t al with
  | nil => exact shows
  | cons key keys ih => exact ih (shows.delete key)

/-! ### Trees that are built anew -/

theorem rbtFold_insert (keep : κ × β → Bool) (start t : Tree κ β) :
    rbtFold (fun k v acc => if keep (k, v) then rbtInsert cmp acc k v else acc) start t =
      mappingSet cmp start (t.toList.filter keep) := by
  rw [rbtFold_eq, mappingSet, List.foldl_filter]

theorem Shows.filter {t : Tree κ β} {al : List (κ × β)} (shows : Shows cmp t al)
    (keep : κ × β → Bool) :
    Shows cmp (mappingSet cmp .empty (t.toList.filter keep)) (al.filter keep) := by
  have empty : Shows cmp (.empty : Tree κ β) [] := Shows.empty
  have built := empty.setAll (al.filter keep)
  have same : Mapping.setAll cmp [] (al.filter keep) = al.filter keep :=
    foldl_set (l := []) (shows.sorted.filter keep)
  rw [same] at built
  rw [shows.entries]
  exact built

theorem Shows.mappingFilter {t : Tree κ β} {al : List (κ × β)} (shows : Shows cmp t al)
    (pred : κ → β → Bool) :
    Shows cmp (mappingFilter cmp pred t) (al.filter fun p => pred p.1 p.2) := by
  rw [Mapping.mappingFilter, rbtFold_insert fun p => pred p.1 p.2]
  exact shows.filter _

theorem Shows.all {rest : List (Tree κ β × List (κ × β))} (shows : ∀ p ∈ rest, Shows cmp p.1 p.2)
    (key : κ) : ((rest.map Prod.fst).all fun t => (rbtLookup cmp key t).isSome) =
      (rest.map Prod.snd).all fun al => present cmp al key := by
  induction rest with
  | nil => rfl
  | cons p rest ih =>
    rw [List.map_cons, List.map_cons, List.all_cons, List.all_cons,
      (shows p List.mem_cons_self).lookup, ih fun q mem => shows q (List.mem_cons_of_mem _ mem)]
    rfl

theorem Shows.any {rest : List (Tree κ β × List (κ × β))} (shows : ∀ p ∈ rest, Shows cmp p.1 p.2)
    (key : κ) : ((rest.map Prod.fst).any fun t => (rbtLookup cmp key t).isSome) =
      (rest.map Prod.snd).any fun al => present cmp al key := by
  induction rest with
  | nil => rfl
  | cons p rest ih =>
    rw [List.map_cons, List.map_cons, List.any_cons, List.any_cons,
      (shows p List.mem_cons_self).lookup, ih fun q mem => shows q (List.mem_cons_of_mem _ mem)]
    rfl

theorem Shows.intersection {t : Tree κ β} {al : List (κ × β)} (first : Shows cmp t al)
    {rest : List (Tree κ β × List (κ × β))} (shows : ∀ p ∈ rest, Shows cmp p.1 p.2) :
    Shows cmp (mappingIntersection cmp t (rest.map Prod.fst))
      (intersectionList cmp al (rest.map Prod.snd)) := by
  rw [mappingIntersection,
    rbtFold_insert fun p => (rest.map Prod.fst).all fun t => (rbtLookup cmp p.1 t).isSome,
    intersectionList]
  simp only [Shows.all shows]
  exact first.filter _

theorem rbtFold_skip (skip : κ × β → Bool) (start t : Tree κ β) :
    rbtFold (fun k v acc => if skip (k, v) then acc else rbtInsert cmp acc k v) start t =
      mappingSet cmp start (t.toList.filter fun p => !skip p) := by
  rw [← rbtFold_insert]
  congr 1
  funext k v acc
  cases skip (k, v) <;> rfl

theorem Shows.difference {t : Tree κ β} {al : List (κ × β)} (first : Shows cmp t al)
    {rest : List (Tree κ β × List (κ × β))} (shows : ∀ p ∈ rest, Shows cmp p.1 p.2) :
    Shows cmp (mappingDifference cmp t (rest.map Prod.fst))
      (differenceList cmp al (rest.map Prod.snd)) := by
  rw [mappingDifference,
    rbtFold_skip fun p => (rest.map Prod.fst).any fun t => (rbtLookup cmp p.1 t).isSome,
    differenceList]
  simp only [Shows.any shows]
  exact first.filter _

theorem mappingXor_eq (t₁ t₂ : Tree κ β) : mappingXor cmp t₁ t₂ =
    mappingSet cmp
      (mappingSet cmp .empty (t₁.toList.filter fun p => !(rbtLookup cmp p.1 t₂).isSome))
      (t₂.toList.filter fun p => !(rbtLookup cmp p.1 t₁).isSome) := by
  rw [mappingXor, rbtFold_skip fun p => (rbtLookup cmp p.1 t₂).isSome,
    rbtFold_skip fun p => (rbtLookup cmp p.1 t₁).isSome]

theorem Shows.xor {t₁ t₂ : Tree κ β} {al₁ al₂ : List (κ × β)} (first : Shows cmp t₁ al₁)
    (second : Shows cmp t₂ al₂) : Shows cmp (mappingXor cmp t₁ t₂) (xorList cmp al₁ al₂) := by
  rw [mappingXor_eq, xorList, second.entries]
  simp only [first.lookup, second.lookup]
  exact (first.filter fun p => !present cmp al₂ p.1).setAll _

theorem Shows.union {t : Tree κ β} {al : List (κ × β)} (first : Shows cmp t al)
    {rest : List (Tree κ β × List (κ × β))} (shows : ∀ p ∈ rest, Shows cmp p.1 p.2) :
    Shows cmp (mappingUnion cmp t (rest.map Prod.fst)) (unionList cmp al (rest.map Prod.snd)) := by
  rw [mappingUnion, unionList]
  induction rest generalizing t al with
  | nil => exact first
  | cons p rest ih =>
    rw [List.map_cons, List.map_cons, List.foldl_cons, List.foldl_cons]
    refine ih ?_ fun q mem => shows q (List.mem_cons_of_mem _ mem)
    rw [rbtFold_eq, (shows p List.mem_cons_self).entries]
    exact first.adjoinAll p.2

theorem Shows.replace {t : Tree κ β} {al : List (κ × β)} (shows : Shows cmp t al) (key : κ)
    (val : β) : Shows cmp (mappingReplace cmp t key val) (replaceList cmp al key val) := by
  rw [mappingReplace, mappingContains, shows.lookup, replaceList, present]
  split
  · exact shows.insert key val
  · exact shows

/-- `mapping-update` is the update of the list, and calls `failure` for an absent key only. -/
theorem Shows.update {m : Type → Type} [Monad m] [LawfulMonad m] {t : Tree κ β}
    {al : List (κ × β)} (shows : Shows cmp t al) (key : κ) (updater : β → m β) (failure : m β)
    (success : β → m β) : Tree.toList <$> mappingUpdate cmp t key updater failure success =
      updateList cmp al key updater failure success := by
  rw [mappingUpdate, updateList, shows.lookup]
  cases AssocList.lookup cmp key al with
  | none =>
    simp only [map_bind, map_pure]
    congr 1
    funext v
    congr 1
    funext new
    exact congrArg pure (shows.insert key new).entries
  | some entry =>
    simp only [map_bind, map_pure]
    congr 1
    funext v
    congr 1
    funext new
    exact congrArg pure (shows.insert key new).entries

/-! ### Colours of trees that are built anew -/

theorem RedBlack.setAll {t : Tree κ β} (redBlack : RedBlack t) (args : List (κ × β)) :
    RedBlack (mappingSet cmp t args) := by
  induction args generalizing t with
  | nil => exact redBlack
  | cons p args ih => exact ih (redBlack.insWith p.1 p.2 _)

theorem RedBlack.adjoinAll {t : Tree κ β} (redBlack : RedBlack t) (args : List (κ × β)) :
    RedBlack (mappingAdjoin cmp t args) := by
  induction args generalizing t with
  | nil => exact redBlack
  | cons p args ih => exact ih (redBlack.insWith p.1 p.2 id)

theorem RedBlack.mappingFilter (pred : κ → β → Bool) (t : Tree κ β) :
    RedBlack (mappingFilter cmp pred t) := by
  rw [Mapping.mappingFilter, rbtFold_insert fun p => pred p.1 p.2]
  exact RedBlack.empty.setAll _

theorem RedBlack.intersection (t : Tree κ β) (rest : List (Tree κ β)) :
    RedBlack (mappingIntersection cmp t rest) := by
  rw [mappingIntersection, rbtFold_insert fun p => rest.all fun t => (rbtLookup cmp p.1 t).isSome]
  exact RedBlack.empty.setAll _

theorem RedBlack.difference (t : Tree κ β) (rest : List (Tree κ β)) :
    RedBlack (mappingDifference cmp t rest) := by
  rw [mappingDifference, rbtFold_skip fun p => rest.any fun t => (rbtLookup cmp p.1 t).isSome]
  exact RedBlack.empty.setAll _

theorem RedBlack.xor (t₁ t₂ : Tree κ β) : RedBlack (mappingXor cmp t₁ t₂) := by
  rw [mappingXor_eq]
  exact (RedBlack.empty.setAll _).setAll _

theorem RedBlack.union {t : Tree κ β} (redBlack : RedBlack t) (rest : List (Tree κ β)) :
    RedBlack (mappingUnion cmp t rest) := by
  rw [mappingUnion]
  induction rest generalizing t with
  | nil => exact redBlack
  | cons t' rest ih =>
    refine ih ?_
    dsimp only
    rw [rbtFold_eq]
    exact redBlack.adjoinAll _

theorem RedBlack.replace {t : Tree κ β} (redBlack : RedBlack t) (key : κ) (val : β) :
    RedBlack (mappingReplace cmp t key val) := by
  rw [mappingReplace]
  split
  · exact redBlack.setAll _
  · exact redBlack

/-- Each deletion of the keys, one after the other, is harmless. -/
def harmlessAll (cmp : Comparator κ) : List κ → Tree κ β → Prop
  | [], _ => True
  | key :: keys, t => harmless cmp key t = true ∧ harmlessAll cmp keys (rbtDelete cmp t key)

theorem RedBlack.deleteAll {t : Tree κ β} (redBlack : RedBlack t) {keys : List κ}
    (allowed : harmlessAll cmp keys t) : RedBlack (mappingDelete cmp t keys) := by
  induction keys generalizing t with
  | nil => exact redBlack
  | cons key keys ih =>
    exact ih ((delete_redBlack_iff redBlack key).mpr allowed.1) allowed.2

/-! ### Runs -/

/-- The mappings that a program makes, each with the sorted list that the program makes from
sorted lists. `allowed` says which keys it may delete from which trees. -/
inductive Run (cmp : Comparator κ) (allowed : List κ → Tree κ β → Prop) :
    Tree κ β → List (κ × β) → Prop
  | mapping (args : List (κ × β)) : Run cmp allowed (mapping cmp args) (setAll cmp [] args)
  | set {m al} (run : Run cmp allowed m al) (args : List (κ × β)) :
      Run cmp allowed (mappingSet cmp m args) (setAll cmp al args)
  | adjoin {m al} (run : Run cmp allowed m al) (args : List (κ × β)) :
      Run cmp allowed (mappingAdjoin cmp m args) (adjoinAll cmp al args)
  | replace {m al} (run : Run cmp allowed m al) (key : κ) (val : β) :
      Run cmp allowed (mappingReplace cmp m key val) (replaceList cmp al key val)
  | update {σ : Type} {m m' al al'} (run : Run cmp allowed m al) {key : κ}
      {updater : β → ExceptT String (StateM σ) β} {failure : ExceptT String (StateM σ) β}
      {success : β → ExceptT String (StateM σ) β} {s s' : σ}
      (ran : mappingUpdate cmp m key updater failure success s = (.ok m', s'))
      (expected : updateList cmp al key updater failure success s = (.ok al', s')) :
      Run cmp allowed m' al'
  | delete {m al} (run : Run cmp allowed m al) {keys : List κ} (may : allowed keys m) :
      Run cmp allowed (mappingDelete cmp m keys) (deleteAll cmp al keys)
  | pop {m m' al} (run : Run cmp allowed m al) {entry : κ × β} (may : allowed [entry.1] m)
      (ran : mappingPop cmp m none = some (m', entry)) : Run cmp allowed m' al.tail
  | filter {m al} (run : Run cmp allowed m al) (pred : κ → β → Bool) :
      Run cmp allowed (mappingFilter cmp pred m) (al.filter fun p => pred p.1 p.2)
  | union {m al} {rest : List (Tree κ β × List (κ × β))} (run : Run cmp allowed m al)
      (runs : ∀ p ∈ rest, Run cmp allowed p.1 p.2) :
      Run cmp allowed (mappingUnion cmp m (rest.map Prod.fst))
        (unionList cmp al (rest.map Prod.snd))
  | intersection {m al} {rest : List (Tree κ β × List (κ × β))} (run : Run cmp allowed m al)
      (runs : ∀ p ∈ rest, Run cmp allowed p.1 p.2) :
      Run cmp allowed (mappingIntersection cmp m (rest.map Prod.fst))
        (intersectionList cmp al (rest.map Prod.snd))
  | difference {m al} {rest : List (Tree κ β × List (κ × β))} (run : Run cmp allowed m al)
      (runs : ∀ p ∈ rest, Run cmp allowed p.1 p.2) :
      Run cmp allowed (mappingDifference cmp m (rest.map Prod.fst))
        (differenceList cmp al (rest.map Prod.snd))
  | xor {m₁ m₂ al₁ al₂} (run : Run cmp allowed m₁ al₁) (run' : Run cmp allowed m₂ al₂) :
      Run cmp allowed (mappingXor cmp m₁ m₂) (xorList cmp al₁ al₂)

variable {allowed : List κ → Tree κ β → Prop} {m : Tree κ β} {al : List (κ × β)}

/-- `mapping-pop` takes the entry of the least key. -/
theorem Shows.pop {t t' : Tree κ β} {entry : κ × β} (shows : Shows cmp t al)
    (ran : mappingPop cmp t none = some (t', entry)) :
    t' = rbtDelete cmp t entry.1 ∧ Shows cmp t' al.tail := by
  cases t with
  | empty => cases ran
  | node c l k v r =>
    cases ran
    refine ⟨rfl, ?_⟩
    have deleted := shows.delete (rbtMin l k v).1
    have head := rbtMin_eq c l k v r
    rw [shows.entries] at head
    have sorted := shows.sorted
    cases al with
    | nil => cases head
    | cons p al =>
      cases head
      have above : ∀ q ∈ al, cmp.lt (rbtMin l k v).1 q.1 = true := (List.pairwise_cons.mp sorted).1
      rw [delete_cons_here (Comparator.eq_refl _), delete_of_lt above] at deleted
      exact deleted

/-- An update that does not fail sets the value that the procedures give. -/
theorem Shows.updated {σ : Type} {t t' : Tree κ β} {al' : List (κ × β)} {key : κ}
    {updater : β → ExceptT String (StateM σ) β} {failure : ExceptT String (StateM σ) β}
    {success : β → ExceptT String (StateM σ) β} {s s' : σ} (shows : Shows cmp t al)
    (ran : mappingUpdate cmp t key updater failure success s = (.ok t', s'))
    (expected : updateList cmp al key updater failure success s = (.ok al', s')) :
    ∃ new, t' = rbtInsert cmp t key new ∧ al' = set cmp key new al := by
  have given (start : ExceptT String (StateM σ) β)
      (tree : (do
        let v ← start
        let new ← updater v
        pure (mappingSet cmp t [(key, new)]) : ExceptT String (StateM σ) (Tree κ β)) s =
          (.ok t', s'))
      (list : (do
        let v ← start
        let new ← updater v
        pure (set cmp key new al) : ExceptT String (StateM σ) (List (κ × β))) s = (.ok al', s')) :
      ∃ new, t' = rbtInsert cmp t key new ∧ al' = set cmp key new al := by
    obtain ⟨v, s₁, started, rest⟩ := Effects.bind_ok tree
    obtain ⟨new, s₂, updated, last⟩ := Effects.bind_ok rest
    obtain ⟨v', s₁', started', rest'⟩ := Effects.bind_ok list
    obtain ⟨new', s₂', updated', last'⟩ := Effects.bind_ok rest'
    cases started.symm.trans started'
    cases updated.symm.trans updated'
    cases last
    cases last'
    exact ⟨new, rfl, rfl⟩
  rw [mappingUpdate, shows.lookup] at ran
  rw [updateList] at expected
  cases found : AssocList.lookup cmp key al with
  | none =>
    rw [found] at ran expected
    exact given failure ran expected
  | some entry =>
    rw [found] at ran expected
    exact given (success entry.2) ran expected

theorem Run.shows (run : Run cmp allowed m al) : Shows cmp m al := by
  induction run with
  | mapping args => exact Shows.empty.setAll args
  | set run args ih => exact ih.setAll args
  | adjoin run args ih => exact ih.adjoinAll args
  | replace run key val ih => exact ih.replace key val
  | update run ran expected ih =>
    obtain ⟨new, rfl, rfl⟩ := ih.updated ran expected
    exact ih.insert _ new
  | delete run may ih => exact ih.deleteAll _
  | pop run may ran ih => exact (ih.pop ran).2
  | filter run pred ih => exact ih.mappingFilter pred
  | union run runs ih ihs => exact ih.union ihs
  | intersection run runs ih ihs => exact ih.intersection ihs
  | difference run runs ih ihs => exact ih.difference ihs
  | xor run run' ih ih' => exact ih.xor ih'

theorem Run.redBlack (run : Run cmp (harmlessAll cmp) m al) : RedBlack m := by
  induction run with
  | mapping args => exact RedBlack.empty.setAll args
  | set run args ih => exact ih.setAll args
  | adjoin run args ih => exact ih.adjoinAll args
  | replace run key val ih => exact ih.replace key val
  | update run ran expected ih =>
    obtain ⟨new, rfl, -⟩ := run.shows.updated ran expected
    exact ih.insWith _ new _
  | delete run may ih => exact ih.deleteAll may
  | pop run may ran ih =>
    obtain ⟨rfl, -⟩ := run.shows.pop ran
    exact ih.deleteAll may
  | filter run pred ih => exact .mappingFilter pred _
  | union run runs ih ihs => exact ih.union _
  | intersection run runs ih ihs => exact .intersection _ _
  | difference run runs ih ihs => exact .difference _ _
  | xor run run' ih ih' => exact .xor _ _

/-! ### What is read from a mapping -/

/-- Lookups, folds, least and greatest entries and ranges are those of the list. -/
structure Agrees (cmp : Comparator κ) (t : Tree κ β) (al : List (κ × β)) : Prop where
  alist : rbtToAlist t = al
  size : rbtSize t = al.length
  ref : ∀ {m : Type → Type} [Monad m] (γ : Type) (key : κ) (failure : m γ) (success : β → m γ),
    mappingRef cmp t key failure success =
      match lookup cmp key al with
      | some entry => success entry.2
      | none => failure
  fold : ∀ (γ : Type) (proc : κ → β → γ → γ) (acc : γ),
    rbtFold proc acc t = al.foldl (fun acc p => proc p.1 p.2 acc) acc
  foldRight : ∀ (γ : Type) (proc : κ → β → γ → γ) (acc : γ),
    rbtFoldRight proc acc t = al.foldr (fun p acc => proc p.1 p.2 acc) acc
  min : ∀ who, mappingMin who t = match al.head? with
    | some entry => .ok entry
    | none => .error (who ++ ": empty")
  max : ∀ who, mappingMax who t = match al.getLast? with
    | some entry => .ok entry
    | none => .error (who ++ ": empty")
  rangeEq : ∀ obj, (mappingRangeEq cmp t obj).toList = al.filter fun p => cmp.eq p.1 obj
  rangeLt : ∀ obj, (mappingRangeLt cmp t obj).toList = al.filter fun p => cmp.lt p.1 obj
  rangeGt : ∀ obj, (mappingRangeGt cmp t obj).toList = al.filter fun p => cmp.lt obj p.1
  rangeLe : ∀ obj, (mappingRangeLe cmp t obj).toList =
    al.filter fun p => cmp.lt p.1 obj || cmp.eq p.1 obj
  rangeGe : ∀ obj, (mappingRangeGe cmp t obj).toList =
    al.filter fun p => cmp.lt obj p.1 || cmp.eq p.1 obj
  update : ∀ {m : Type → Type} [Monad m] [LawfulMonad m] (key : κ) (updater : β → m β)
    (failure : m β) (success : β → m β),
    Tree.toList <$> mappingUpdate cmp t key updater failure success =
      updateList cmp al key updater failure success
  pop : ∀ {m : Type → Type} [Monad m] (failure : m (Tree κ β × κ × β)),
    mappingPop cmp t failure = match al with
      | entry :: _ => pure (mappingDelete cmp t [entry.1], entry)
      | [] => failure

/-- The result is the key of the list, and `failure` is called when there is none only. -/
def KeyLaw (found : {m : Type → Type} → [Monad m] → m κ → m κ) (expected : Option κ) : Prop :=
  ∀ {m : Type → Type} [Monad m] [LawfulMonad m] (failure : m κ),
    found failure = match expected with
      | some key => pure key
      | none => failure

theorem Shows.agrees {t : Tree κ β} (shows : Shows cmp t al) : Agrees cmp t al where
  alist := (rbtToAlist_eq t).trans shows.entries
  size := by rw [rbtSize_eq, shows.entries]
  ref γ key failure success := by
    have same := shows.lookup key
    cases found : AssocList.lookup cmp key al with
    | none =>
      rw [found] at same
      simp only [mappingRef, same]
    | some entry =>
      rw [found] at same
      simp only [mappingRef, same]
  fold γ proc acc := by rw [rbtFold_eq, shows.entries]
  foldRight γ proc acc := by rw [rbtFoldRight_eq, shows.entries]
  min who := by
    rw [← shows.entries]
    cases t with
    | empty => rfl
    | node c l k v r => rw [rbtMin_eq, mappingMin]
  max who := by
    rw [← shows.entries]
    cases t with
    | empty => rfl
    | node c l k v r => rw [rbtMax_eq, mappingMax]
  rangeEq obj := (shows.mappingFilter _).entries
  rangeLt obj := (shows.mappingFilter _).entries
  rangeGt obj := (shows.mappingFilter _).entries
  rangeLe obj := (shows.mappingFilter _).entries
  rangeGe obj := (shows.mappingFilter _).entries
  update := shows.update
  pop failure := by
    rw [← shows.entries]
    cases t with
    | empty => rfl
    | node c l k v r =>
      rw [Tree.toList, ← toList_rbtMin l k v r c]
      rfl

theorem foldl_last (keep : κ → Bool) (start : κ) (al : List (κ × β)) :
    al.foldl (fun acc p => if keep p.1 then p.1 else acc) start =
      (((al.filter fun p => keep p.1).getLast?).map Prod.fst).getD start := by
  induction al generalizing start with
  | nil => rfl
  | cons p al ih =>
    rw [List.foldl_cons, ih, List.filter_cons]
    split
    · rw [List.getLast?_cons]
      cases (al.filter fun p => keep p.1).getLast? with
      | none => rfl
      | some q => rfl
    · rfl

theorem foldr_first (keep : κ → Bool) (start : κ) (al : List (κ × β)) :
    al.foldr (fun p acc => if keep p.1 then p.1 else acc) start =
      (((al.filter fun p => keep p.1).head?).map Prod.fst).getD start := by
  induction al with
  | nil => rfl
  | cons p al ih =>
    rw [List.foldr_cons, ih, List.filter_cons]
    split
    · rfl
    · rfl

/-- `failure` is called first in any case. -/
theorem keyLaw_iff {found : {m : Type → Type} → [Monad m] → m κ → m κ} {expected : Option κ}
    (eq : ∀ {m : Type → Type} [Monad m] (failure : m κ), found failure = (do
      let start ← failure
      pure (expected.getD start))) : KeyLaw found expected ↔ expected = none := by
  constructor
  · intro law
    cases expected with
    | none => rfl
    | some key =>
      have none_ : (none : Option κ) = some key := (eq none).symm.trans (law none)
      cases none_
  · intro none_ m _ _ failure
    refine (eq failure).trans ?_
    rw [none_]
    exact bind_pure failure

theorem Shows.predecessor_iff {t : Tree κ β} (shows : Shows cmp t al) (obj : κ) :
    KeyLaw (fun failure => mappingKeyPredecessor cmp t obj failure) (predecessor cmp al obj) ↔
      predecessor cmp al obj = none := by
  refine keyLaw_iff fun failure => ?_
  rw [mappingKeyPredecessor]
  congr 1
  funext start
  rw [rbtFold_eq, shows.entries, foldl_last fun k => cmp.lt k obj]
  rfl

theorem Shows.successor_iff {t : Tree κ β} (shows : Shows cmp t al) (obj : κ) :
    KeyLaw (fun failure => mappingKeySuccessor cmp t obj failure) (successor cmp al obj) ↔
      successor cmp al obj = none := by
  refine keyLaw_iff fun failure => ?_
  rw [mappingKeySuccessor]
  congr 1
  funext start
  rw [rbtFoldRight_eq, shows.entries, foldr_first fun k => cmp.lt obj k]
  rfl

def natComparator : Comparator Nat where
  lt a b := decide (a < b)
  eq a b := decide (a = b)
  irrefl a := decide_eq_false (Nat.lt_irrefl a)
  trans a b c less less' := decide_eq_true
    (Nat.lt_trans (of_decide_eq_true less) (of_decide_eq_true less'))
  split a b c less := by
    have := of_decide_eq_true less
    rw [decide_eq_true_eq, decide_eq_true_eq]
    omega
  eq_iff a b := by
    rw [decide_eq_true_eq, decide_eq_false_iff_not, decide_eq_false_iff_not]
    omega

end Chaaya.Mapping
