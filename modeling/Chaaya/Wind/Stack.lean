import Mathlib

/-! The thunks that run on the way from one wind stack to another. A stack has its outermost
record first. -/

namespace Chaaya.Wind

variable {P : Type} [DecidableEq P]

/-- A record of the stack. The VM has the two thunks only; `extent` is the call of
`dynamic-wind`. -/
structure Record (P : Type) where
  extent : Nat
  before : P
  after : P
deriving DecidableEq

/-- A thunk that is applied, and the stack at that time. -/
structure Call (P : Type) where
  thunk : P
  winds : List (Record P)
deriving DecidableEq

/-- The thunks that have run, the stack that is left, and whether the end was reached. -/
structure Passage (P : Type) where
  calls : List (Call P)
  winds : List (Record P)
  done : Bool
deriving DecidableEq

/-- `CH_VM_MAX_WINDS` -/
def maxWinds : Nat := 32768

/-- `ch_eq` on both thunks. -/
def sameThunks (a b : Record P) : Bool := a.before == b.before && a.after == b.after

def common : List (Record P) → List (Record P) → Nat
  | a :: as, b :: bs => if sameThunks a b then common as bs + 1 else 0
  | _, _ => 0

/-- `n` times: the top record is taken off, and its `after` runs. -/
def popWinds : Nat → List (Record P) → List (Call P) × List (Record P)
  | 0, winds => ([], winds)
  | n + 1, winds =>
    match winds.getLast? with
    | none => ([], winds)
    | some top =>
      let (calls, left) := popWinds n winds.dropLast
      (⟨top.after, winds.dropLast⟩ :: calls, left)

/-- The `before` of a record runs, and the record goes on the stack if there is room. -/
def pushWinds : List (Record P) → List (Record P) → Passage P
  | [], winds => ⟨[], winds, true⟩
  | w :: target, winds =>
    if maxWinds < winds.length + 1 then ⟨[⟨w.before, winds⟩], winds, false⟩
    else
      let entered := pushWinds target (winds ++ [w])
      { entered with calls := ⟨w.before, winds⟩ :: entered.calls }

/-- `ch_vm_wind_transition`, where every thunk returns and leaves the stack as it was. -/
def windTransition (winds target : List (Record P)) : Passage P :=
  let shared := common winds target
  let left := popWinds (winds.length - shared) winds
  let entered := pushWinds (target.drop shared) left.2
  { entered with calls := left.1 ++ entered.calls }

/-- The wind stack in `ch_vm_invoke_continuation`. -/
def invokeContinuation (winds target : List (Record P)) : Passage P :=
  let passage := windTransition winds target
  if passage.done = false then passage
  else if maxWinds < target.length then { passage with done := false }
  else { passage with winds := target }

/-- The wind stack in `ch_vm_invoke_escape`. -/
def invokeEscape (winds : List (Record P)) (targetWindCount : Nat) : Passage P :=
  let left := popWinds (winds.length - targetWindCount) winds
  ⟨left.1, left.2, true⟩

/-! ### Extents -/

def active (winds : List (Record P)) (w : Record P) : Bool := winds.any (·.extent == w.extent)

/-- The thunks of those extents of a stack that do not stay, outermost first. -/
def calls (thunk : Record P → P) (stays : Record P → Bool) (outside : List (Record P)) :
    List (Record P) → List (Call P)
  | [] => []
  | w :: inner =>
    (if stays w then [] else [⟨thunk w, outside⟩]) ++ calls thunk stays (outside ++ [w]) inner

/-- What has to run on the way from one stack to another: the `after` thunks of the extents that
are left, innermost first, and the `before` thunks of those that are entered. -/
def crossing (winds target : List (Record P)) : List (Call P) :=
  (calls Record.after (active target) [] winds).reverse ++
    calls Record.before (active winds) [] target

/-- Two stacks part at different extents that have the same thunks. -/
def Confused (winds target : List (Record P)) : Prop :=
  ∃ outside a b as bs, winds = outside ++ a :: as ∧ target = outside ++ b :: bs ∧
    a.extent ≠ b.extent ∧ sameThunks a b

/-- An extent that is on both stacks is the same record with the same records outside. -/
def Agree (winds target : List (Record P)) : Prop :=
  ∀ outside a inner outside' b inner', winds = outside ++ a :: inner →
    target = outside' ++ b :: inner' → a.extent = b.extent → outside = outside' ∧ a = b

omit [DecidableEq P]

section
variable {thunk : Record P → P} {stays stays' : Record P → Bool} {winds : List (Record P)}

theorem calls_append (outside winds inner : List (Record P)) :
    calls thunk stays outside (winds ++ inner) =
      calls thunk stays outside winds ++ calls thunk stays (outside ++ winds) inner := by
  induction winds generalizing outside with
  | nil => simp [calls]
  | cons w winds ih => simp [calls, ih]

theorem calls_stays (all : ∀ w ∈ winds, stays w = true) (outside : List (Record P)) :
    calls thunk stays outside winds = [] := by
  induction winds generalizing outside with
  | nil => rfl
  | cons w winds ih =>
    rw [List.forall_mem_cons] at all
    simp [calls, all.1, ih all.2]

theorem calls_congr (same : ∀ w ∈ winds, stays w = stays' w) (outside : List (Record P)) :
    calls thunk stays outside winds = calls thunk stays' outside winds := by
  induction winds generalizing outside with
  | nil => rfl
  | cons w winds ih =>
    rw [List.forall_mem_cons] at same
    simp [calls, same.1, ih same.2]

theorem calls_within {outside : List (Record P)} {call : Call P}
    (mem : call ∈ calls thunk stays outside winds) :
    outside <+: call.winds ∧ call.winds <+: outside ++ winds := by
  induction winds generalizing outside with
  | nil => cases mem
  | cons w winds ih =>
    rcases List.mem_append.mp mem with own | inner
    · split at own
      · cases own
      · rw [List.mem_singleton.mp own]
        exact ⟨List.prefix_rfl, List.prefix_append _ _⟩
    · have within := ih inner
      rw [List.append_assoc, List.singleton_append] at within
      exact ⟨(List.prefix_append _ _).trans within.1, within.2⟩

end

theorem popWinds_append (outside inner : List (Record P)) :
    popWinds inner.length (outside ++ inner) =
      ((calls Record.after (fun _ => false) outside inner).reverse, outside) := by
  induction inner using List.reverseRecOn with
  | nil => simp [popWinds, calls]
  | append_singleton inner w ih =>
    rw [List.length_append, List.length_singleton, popWinds, ← List.append_assoc,
      List.getLast?_concat, List.dropLast_concat, ih, calls_append]
    simp [calls]

theorem pushWinds_room (target winds : List (Record P))
    (room : winds.length + target.length ≤ maxWinds) :
    pushWinds target winds =
      ⟨calls Record.before (fun _ => false) winds target, winds ++ target, true⟩ := by
  induction target generalizing winds with
  | nil => simp [pushWinds, calls]
  | cons w target ih =>
    rw [List.length_cons] at room
    have next := ih (winds ++ [w]) (by simp; omega)
    have free : ¬maxWinds < winds.length + 1 := by omega
    simp [pushWinds, calls, next, free]

end Chaaya.Wind

/-! What the invocation of a continuation runs, against the extents that it leaves and enters. -/

namespace Chaaya.Wind

variable {P : Type} [DecidableEq P] {winds target : List (Record P)}

theorem common_le (winds target : List (Record P)) :
    common winds target ≤ winds.length ∧ common winds target ≤ target.length := by
  induction winds generalizing target with
  | nil => simp [common]
  | cons a as ih =>
    cases target with
    | nil => simp [common]
    | cons b bs =>
      have := ih bs
      simp only [common, List.length_cons]
      split <;> omega

theorem common_append (outside as bs : List (Record P)) :
    common (outside ++ as) (outside ++ bs) = outside.length + common as bs := by
  induction outside with
  | nil => simp
  | cons w outside ih => simp [common, sameThunks, ih, Nat.add_right_comm]

theorem windTransition_eq (room : target.length ≤ maxWinds) :
    windTransition winds target =
      ⟨(calls Record.after (fun _ => false) (winds.take (common winds target))
          (winds.drop (common winds target))).reverse ++
        calls Record.before (fun _ => false) (winds.take (common winds target))
          (target.drop (common winds target)),
        winds.take (common winds target) ++ target.drop (common winds target), true⟩ := by
  obtain ⟨left, right⟩ := common_le winds target
  have popped := popWinds_append (winds.take (common winds target))
    (winds.drop (common winds target))
  rw [List.take_append_drop, List.length_drop] at popped
  simp only [windTransition, popped]
  rw [pushWinds_room]
  rw [List.length_take, List.length_drop]
  omega

/-- The two stacks have the same records outside, and part at different thunks. -/
theorem windTransition_parted (outside : List (Record P)) {as bs : List (Record P)}
    (parted : common as bs = 0) (room : (outside ++ bs).length ≤ maxWinds) :
    windTransition (outside ++ as) (outside ++ bs) =
      ⟨(calls Record.after (fun _ => false) outside as).reverse ++
        calls Record.before (fun _ => false) outside bs, outside ++ bs, true⟩ := by
  rw [windTransition_eq room, common_append, parted, Nat.add_zero, List.take_left, List.drop_left,
    List.drop_left]

theorem invokeContinuation_eq (room : target.length ≤ maxWinds) :
    invokeContinuation winds target = ⟨(windTransition winds target).calls, target, true⟩ := by
  have free : ¬maxWinds < target.length := by omega
  simp [invokeContinuation, windTransition_eq room, free]

omit [DecidableEq P] in
theorem invokeEscape_eq (winds : List (Record P)) (count : Nat) :
    invokeEscape winds count =
      ⟨(calls Record.after (fun _ => false) (winds.take count) (winds.drop count)).reverse,
        winds.take count, true⟩ := by
  have popped := popWinds_append (winds.take count) (winds.drop count)
  rw [List.take_append_drop, List.length_drop] at popped
  rw [invokeEscape, popped]

/-! ### Extents -/

omit [DecidableEq P] in
theorem active_iff {w : Record P} : active winds w = true ↔ ∃ v ∈ winds, v.extent = w.extent := by
  simp [active]

omit [DecidableEq P] in
theorem active_mem {w : Record P} (mem : w ∈ winds) : active winds w = true :=
  active_iff.mpr ⟨w, mem, rfl⟩

omit [DecidableEq P] in
theorem Agree.symm (agree : Agree winds target) : Agree target winds := by
  intro outside a inner outside' b inner' here there same
  obtain ⟨equal, own⟩ := agree outside' b inner' outside a inner there here same.symm
  exact ⟨equal.symm, own.symm⟩

omit [DecidableEq P] in
theorem Agree.mono {winds' target' : List (Record P)} (agree : Agree winds target)
    (left : winds' <+: winds) (right : target' <+: target) : Agree winds' target' := by
  obtain ⟨more, rfl⟩ := left
  obtain ⟨more', rfl⟩ := right
  intro outside a inner outside' b inner' here there same
  refine agree outside a (inner ++ more) outside' b (inner' ++ more') ?_ ?_ same
  · rw [here, List.append_assoc, List.cons_append]
  · rw [there, List.append_assoc, List.cons_append]

theorem exists_parts (winds target : List (Record P)) :
    ∃ outside as bs, winds = outside ++ as ∧ target = outside ++ bs ∧
      ∀ a b, as.head? = some a → bs.head? = some b → a ≠ b := by
  induction winds generalizing target with
  | nil => exact ⟨[], [], target, rfl, rfl, by simp⟩
  | cons a as ih =>
    cases target with
    | nil => exact ⟨[], a :: as, [], rfl, rfl, by simp⟩
    | cons b bs =>
      by_cases same : a = b
      · obtain ⟨outside, as', bs', left, right, differ⟩ := ih bs
        exact ⟨a :: outside, as', bs', by rw [left]; rfl, by rw [right, same]; rfl, differ⟩
      · exact ⟨[], a :: as, b :: bs, rfl, rfl, by simpa using same⟩

section
variable {outside as bs : List (Record P)}

omit [DecidableEq P] in
theorem not_active_of_parted (agree : Agree (outside ++ as) (outside ++ bs))
    (differ : ∀ a b, as.head? = some a → bs.head? = some b → a ≠ b) :
    ∀ w ∈ as, active (outside ++ bs) w = false := by
  intro w mem
  rw [Bool.eq_false_iff, Ne, active_iff]
  rintro ⟨v, there, same⟩
  obtain ⟨front, back, split⟩ := List.append_of_mem mem
  obtain ⟨front', back', split'⟩ := List.append_of_mem there
  obtain ⟨equal, rfl⟩ := agree (outside ++ front) w back front' v back'
    (by rw [split, List.append_assoc]) split' same.symm
  rw [← equal, List.append_assoc, List.append_cancel_left_eq] at split'
  subst split split'
  cases front with
  | nil => exact differ w w rfl rfl rfl
  | cons first front => exact differ first first rfl rfl rfl

theorem crossing_parted (agree : Agree (outside ++ as) (outside ++ bs))
    (differ : ∀ a b, as.head? = some a → bs.head? = some b → a ≠ b) :
    crossing (outside ++ as) (outside ++ bs) =
      (calls Record.after (fun _ => false) outside as).reverse ++
        calls Record.before (fun _ => false) outside bs := by
  have left := not_active_of_parted agree differ
  have right := not_active_of_parted agree.symm fun a b here there => (differ b a there here).symm
  have shared : ∀ more, ∀ w ∈ outside, active (outside ++ more) w = true := fun more w mem =>
    active_mem (List.mem_append_left more mem)
  rw [crossing, calls_append, calls_append, calls_stays (shared bs), calls_stays (shared as),
    calls_congr left, calls_congr right]
  rfl

end

/-- An invocation runs what it has to exactly where the two stacks are not confused. -/
theorem invokeContinuation_iff (agree : Agree winds target) (room : target.length ≤ maxWinds) :
    invokeContinuation winds target = ⟨crossing winds target, target, true⟩ ↔
      ¬Confused winds target := by
  rw [invokeContinuation_eq room, Passage.mk.injEq]
  simp only [and_true]
  constructor
  · rintro right ⟨outside, a, b, as, bs, rfl, rfl, differ, same⟩
    have missed : (⟨a.after, outside⟩ : Call P) ∈
        crossing (outside ++ a :: as) (outside ++ b :: bs) := by
      have left := not_active_of_parted agree (by
        rintro _ _ ⟨⟩ ⟨⟩ equal
        exact differ (congrArg Record.extent equal)) a (.head _)
      rw [crossing, calls_append, List.nil_append, calls, left]
      simp
    rw [← right, windTransition_eq room, common_append, common, if_pos same] at missed
    have long : (outside ++ a :: as).take (outside.length + (common as bs + 1)) <+: outside := by
      rcases List.mem_append.mp missed with after | before
      · exact (calls_within (List.mem_reverse.mp after)).1
      · exact (calls_within before).1
    have within := long.length_le
    rw [List.length_take, List.length_append, List.length_cons] at within
    have := (common_le as bs).1
    omega
  · intro clear
    obtain ⟨outside, as, bs, rfl, rfl, differ⟩ := exists_parts winds target
    have parted : common as bs = 0 := by
      cases as with
      | nil => simp [common]
      | cons a as =>
        cases bs with
        | nil => simp [common]
        | cons b bs =>
          have apart : a.extent ≠ b.extent := fun same =>
            differ a b rfl rfl (agree outside a as outside b bs rfl rfl same).2
          have thunks : ¬sameThunks a b = true := fun same =>
            clear ⟨outside, a, b, as, bs, rfl, rfl, apart, same⟩
          rw [common, if_neg thunks]
    rw [windTransition_parted outside parted room, crossing_parted agree differ]

/-- An escape runs what it has to exactly where the stack that it was made with is still there. -/
theorem invokeEscape_iff (agree : Agree winds target) :
    invokeEscape winds target.length = ⟨crossing winds target, target, true⟩ ↔
      target <+: winds := by
  rw [invokeEscape_eq, Passage.mk.injEq]
  simp only [and_true]
  constructor
  · rintro ⟨-, left⟩
    exact List.prefix_iff_eq_take.mpr left.symm
  · rintro ⟨inner, rfl⟩
    have alone : Agree (target ++ inner) (target ++ []) := by rwa [List.append_nil]
    have crossed := crossing_parted alone (by simp)
    rw [List.append_nil] at crossed
    rw [crossed, List.take_left, List.drop_left, calls, List.append_nil]
    exact ⟨rfl, rfl⟩

end Chaaya.Wind
