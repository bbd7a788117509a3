import Chaaya.Fiber.Snapshot
import Chaaya.Linked

/-! The list of open upvalues. `close_upvalues`, `close_all_open_upvalues` and `capture_upvalue` walk
the `next` pointers; their loops are given fuel, and `none` stands for a walk that does not end or
that compares the cell of a closed upvalue, which is outside the register file. -/

namespace Chaaya.Upvalue
open Chaaya.Fiber Chaaya.Linked

def closeHead (vm : Vm) (u : Nat) : Vm :=
  { vm with
    uvs := Function.update vm.uvs u
      { vm.uvs u with isClosed := true, closedValue := vm.regs (vm.uvs u).location }
    openUpvalues := (vm.uvs u).next }

def closeUpvaluesLoop (last : Nat) : Nat → Vm → Option Vm
  | 0, _ => none
  | fuel + 1, vm =>
    match vm.openUpvalues with
    | none => some vm
    | some u =>
      if (vm.uvs u).isClosed then none
      else if last ≤ (vm.uvs u).location then closeUpvaluesLoop last fuel (closeHead vm u)
      else some vm

def closeUpvalues (vm : Vm) (last : Nat) : Option Vm :=
  closeUpvaluesLoop last (vm.uvCount + 1) vm

def closeAllOpenUpvaluesLoop : Nat → Vm → Option Vm
  | 0, _ => none
  | fuel + 1, vm =>
    match vm.openUpvalues with
    | none => some vm
    | some u =>
      closeAllOpenUpvaluesLoop fuel
        (if (vm.uvs u).isClosed then { vm with openUpvalues := (vm.uvs u).next } else closeHead vm u)

def closeAllOpenUpvalues (vm : Vm) : Option Vm :=
  closeAllOpenUpvaluesLoop (vm.uvCount + 1) vm

/-- The new cell goes between `prev` and `uv`. -/
def createUpvalue (vm : Vm) (loc : Nat) (prev uv : Option Nat) : Vm :=
  let created : Upvalue := ⟨loc, false, .undefined, uv⟩
  let uvs := Function.update vm.uvs vm.uvCount created
  match prev with
  | some p =>
    { vm with
      uvs := Function.update uvs p { uvs p with next := some vm.uvCount }
      uvCount := vm.uvCount + 1 }
  | none => { vm with uvs := uvs, uvCount := vm.uvCount + 1, openUpvalues := some vm.uvCount }

def captureUpvalueLoop (vm : Vm) (loc : Nat) : Nat → Option Nat → Option Nat → Option (Nat × Vm)
  | 0, _, _ => none
  | _ + 1, prev, none => some (vm.uvCount, createUpvalue vm loc prev none)
  | fuel + 1, prev, some u =>
    if (vm.uvs u).isClosed then none
    else if loc < (vm.uvs u).location then captureUpvalueLoop vm loc fuel (some u) (vm.uvs u).next
    else if (vm.uvs u).location = loc then some (u, vm)
    else some (vm.uvCount, createUpvalue vm loc prev (some u))

def captureUpvalue (vm : Vm) (loc : Nat) : Option (Nat × Vm) :=
  captureUpvalueLoop vm loc (vm.uvCount + 1) none vm.openUpvalues

def IsOpen (vm : Vm) (u : Nat) : Prop := u < vm.uvCount ∧ (vm.uvs u).isClosed = false

/-- The list is `xs`: sorted from the highest register down, and nothing else is open. -/
structure OpenList (vm : Vm) (xs : List Nat) : Prop where
  linked : Segment (fun u => (vm.uvs u).next) vm.openUpvalues xs none
  descending : xs.Pairwise fun u v => (vm.uvs v).location < (vm.uvs u).location
  mem : ∀ u, u ∈ xs ↔ IsOpen vm u

variable {vm vm' : Vm} {xs ys : List Nat} {last loc u : Nat}

theorem OpenList.nodup (list : OpenList vm xs) : xs.Nodup := by
  refine List.nodup_iff_pairwise_ne.2 (list.descending.imp fun lower here => ?_)
  subst here
  exact Nat.lt_irrefl _ lower

theorem OpenList.location_inj (list : OpenList vm xs) {u v : Nat} (memU : u ∈ xs) (memV : v ∈ xs)
    (same : (vm.uvs u).location = (vm.uvs v).location) : u = v := by
  have once : (xs.map fun u => (vm.uvs u).location).Nodup :=
    List.nodup_iff_pairwise_ne.2
      (List.pairwise_map.2 (list.descending.imp fun lower => Nat.ne_of_gt lower))
  exact List.inj_on_of_nodup_map once memU memV same

theorem OpenList.length_le (list : OpenList vm xs) : xs.length ≤ vm.uvCount :=
  length_le_of_bounded list.nodup fun u mem => ((list.mem u).1 mem).1

theorem go_of_segment (vm : Vm) {fuel : Nat} {head : Option Nat}
    (segment : Segment (fun u => (vm.uvs u).next) head xs none) (enough : xs.length ≤ fuel) :
    openList.go vm fuel head = some xs := by
  induction xs generalizing fuel head with
  | nil =>
    obtain rfl : head = none := segment
    rw [openList.go]
  | cons u xs ih =>
    obtain rfl := segment.head_eq
    cases fuel with
    | zero => simp at enough
    | succ fuel =>
      rw [openList.go, ih segment.2 (Nat.le_of_succ_le_succ enough)]
      rfl

theorem OpenList.openList_eq (list : OpenList vm xs) : openList vm = some xs :=
  go_of_segment vm list.linked list.length_le

/-- A change of what the list does not look at. -/
theorem OpenList.congr (list : OpenList vm xs) (uvs : ∀ u, u < vm.uvCount →
      (vm'.uvs u).next = (vm.uvs u).next ∧ (vm'.uvs u).location = (vm.uvs u).location ∧
      (vm'.uvs u).isClosed = (vm.uvs u).isClosed)
    (count : vm'.uvCount = vm.uvCount) (head : vm'.openUpvalues = vm.openUpvalues) :
    OpenList vm' xs where
  linked := by
    rw [head]
    exact list.linked.congr fun u mem => (uvs u ((list.mem u).1 mem).1).1
  descending := list.descending.imp_of_mem fun {u v} memU memV lower => by
    rw [(uvs u ((list.mem u).1 memU).1).2.1, (uvs v ((list.mem v).1 memV).1).2.1]
    exact lower
  mem u := by
    rw [list.mem, IsOpen, IsOpen, count]
    constructor
    · intro ⟨known, shut⟩
      exact ⟨known, (uvs u known).2.2.trans shut⟩
    · intro ⟨known, shut⟩
      exact ⟨known, (uvs u known).2.2.symm.trans shut⟩

/-- What `close_upvalues` leaves of the upvalues. -/
structure Closes (vm : Vm) (last : Nat) (vm' : Vm) : Prop where
  frames : vm'.frames = vm.frames
  regs : vm'.regs = vm.regs
  count : vm'.uvCount = vm.uvCount
  location : ∀ u, (vm'.uvs u).location = (vm.uvs u).location
  shut : ∀ u, IsOpen vm u → last ≤ (vm.uvs u).location →
    (vm'.uvs u).isClosed ∧ (vm'.uvs u).closedValue = vm.regs (vm.uvs u).location
  kept : ∀ u, ¬ (IsOpen vm u ∧ last ≤ (vm.uvs u).location) → vm'.uvs u = vm.uvs u

theorem OpenList.closeHead (list : OpenList vm (u :: xs)) : OpenList (closeHead vm u) xs := by
  have absent : u ∉ xs := (List.nodup_cons.1 list.nodup).1
  have same : ∀ v ∈ xs, (Upvalue.closeHead vm u).uvs v = vm.uvs v := by
    intro v mem
    refine Function.update_of_ne ?_ _ _
    rintro rfl
    exact absent mem
  refine ⟨list.linked.2.congr fun v mem => by rw [same v mem], ?_, fun v => ?_⟩
  · refine (List.pairwise_cons.1 list.descending).2.imp_of_mem fun {v w} memV memW lower => ?_
    rw [same v memV, same w memW]
    exact lower
  · by_cases here : v = u
    · subst here
      simp [IsOpen, Upvalue.closeHead, absent]
    · have whole := list.mem v
      simp only [List.mem_cons, here, false_or] at whole
      rw [whole]
      simp [IsOpen, Upvalue.closeHead, Function.update_of_ne here]

theorem Closes.refl (none_ : ∀ u, IsOpen vm u → (vm.uvs u).location < last) : Closes vm last vm where
  frames := rfl
  regs := rfl
  count := rfl
  location _ := rfl
  shut u isOpen high := absurd (none_ u isOpen) (Nat.not_lt.2 high)
  kept _ _ := rfl

theorem Closes.head (isOpen : IsOpen vm u) (high : last ≤ (vm.uvs u).location)
    (rest : Closes (closeHead vm u) last vm') : Closes vm last vm' := by
  have self : (closeHead vm u).uvs u =
      { vm.uvs u with isClosed := true, closedValue := vm.regs (vm.uvs u).location } :=
    Function.update_self _ _ _
  have other : ∀ v, v ≠ u → (closeHead vm u).uvs v = vm.uvs v :=
    fun v here => Function.update_of_ne here _ _
  have done : vm'.uvs u = (closeHead vm u).uvs u :=
    rest.kept u fun both => by
      have shut := both.1.2
      rw [self] at shut
      cases shut
  refine ⟨rest.frames, rest.regs, rest.count, fun v => ?_, fun v vOpen vHigh => ?_, fun v still => ?_⟩
  · rw [rest.location]
    by_cases here : v = u
    · subst here
      rw [self]
    · rw [other v here]
  · by_cases here : v = u
    · subst here
      rw [done, self]
      exact ⟨rfl, rfl⟩
    · have shut := rest.shut v
      rw [IsOpen, other v here] at shut
      exact shut vOpen vHigh
  · have here : v ≠ u := by
      rintro rfl
      exact still ⟨isOpen, high⟩
    rw [rest.kept v, other v here]
    rintro ⟨vOpen, vHigh⟩
    rw [IsOpen, other v here] at vOpen
    rw [other v here] at vHigh
    exact still ⟨vOpen, vHigh⟩

/-- `close_upvalues` ends, and what is left of the list is below `last`. -/
theorem OpenList.closeUpvaluesLoop (list : OpenList vm xs) (last : Nat) {fuel : Nat}
    (enough : xs.length < fuel) : ∃ vm' ys, closeUpvaluesLoop last fuel vm = some vm' ∧
      OpenList vm' ys ∧ Closes vm last vm' ∧ ∀ u ∈ ys, u ∈ xs ∧ (vm'.uvs u).location < last := by
  induction xs generalizing vm fuel with
  | nil =>
    obtain ⟨fuel, rfl⟩ := Nat.exists_eq_succ_of_ne_zero (Nat.ne_of_gt enough)
    have head : vm.openUpvalues = none := list.linked
    refine ⟨vm, [], ?_, list, Closes.refl fun u isOpen => ?_, nofun⟩
    · rw [Upvalue.closeUpvaluesLoop, head]
    · exact absurd ((list.mem u).2 isOpen) List.not_mem_nil
  | cons u xs ih =>
    obtain ⟨fuel, rfl⟩ := Nat.exists_eq_succ_of_ne_zero (Nat.ne_of_gt (Nat.lt_of_le_of_lt (Nat.zero_le _) enough))
    have head : vm.openUpvalues = some u := list.linked.head_eq
    have isOpen := (list.mem u).1 List.mem_cons_self
    rw [Upvalue.closeUpvaluesLoop, head]
    dsimp only
    rw [if_neg (by simp [isOpen.2])]
    by_cases high : last ≤ (vm.uvs u).location
    · rw [if_pos high]
      obtain ⟨vm', ys, ran, list', closes, below⟩ := ih list.closeHead (Nat.lt_of_succ_lt_succ enough)
      exact ⟨vm', ys, ran, list', closes.head isOpen high,
        fun v mem => ⟨List.mem_cons_of_mem _ (below v mem).1, (below v mem).2⟩⟩
    · rw [if_neg high]
      have low := Nat.not_le.1 high
      have all : ∀ v ∈ u :: xs, (vm.uvs v).location < last := by
        intro v mem
        obtain rfl | mem := List.mem_cons.1 mem
        · exact low
        · exact Nat.lt_trans ((List.pairwise_cons.1 list.descending).1 v mem) low
      exact ⟨vm, u :: xs, rfl, list, Closes.refl fun v vOpen => all v ((list.mem v).2 vOpen),
        fun v mem => ⟨mem, all v mem⟩⟩

theorem OpenList.closeUpvalues (list : OpenList vm xs) (last : Nat) :
    ∃ vm' ys, closeUpvalues vm last = some vm' ∧ OpenList vm' ys ∧ Closes vm last vm' ∧
      ∀ u ∈ ys, u ∈ xs ∧ (vm'.uvs u).location < last :=
  list.closeUpvaluesLoop last (Nat.lt_succ_of_le list.length_le)

/-- `close_all_open_upvalues` leaves nothing open. -/
theorem OpenList.closeAllLoop (list : OpenList vm xs) {fuel : Nat} (enough : xs.length < fuel) :
    ∃ vm', closeAllOpenUpvaluesLoop fuel vm = some vm' ∧ OpenList vm' [] ∧
      vm'.uvCount = vm.uvCount := by
  induction xs generalizing vm fuel with
  | nil =>
    obtain ⟨fuel, rfl⟩ := Nat.exists_eq_succ_of_ne_zero (Nat.ne_of_gt enough)
    have head : vm.openUpvalues = none := list.linked
    refine ⟨vm, ?_, list, rfl⟩
    rw [closeAllOpenUpvaluesLoop, head]
  | cons u xs ih =>
    obtain ⟨fuel, rfl⟩ := Nat.exists_eq_succ_of_ne_zero (Nat.ne_of_gt (Nat.lt_of_le_of_lt (Nat.zero_le _) enough))
    have head : vm.openUpvalues = some u := list.linked.head_eq
    have isOpen := (list.mem u).1 List.mem_cons_self
    obtain ⟨vm', ran, list', count⟩ := ih list.closeHead (Nat.lt_of_succ_lt_succ enough)
    refine ⟨vm', ?_, list', count⟩
    rw [closeAllOpenUpvaluesLoop, head]
    dsimp only
    rw [if_neg (by simp [isOpen.2])]
    exact ran

theorem OpenList.closeAll (list : OpenList vm xs) :
    ∃ vm', closeAllOpenUpvalues vm = some vm' ∧ OpenList vm' [] ∧ vm'.uvCount = vm.uvCount :=
  list.closeAllLoop (Nat.lt_succ_of_le list.length_le)

/-- Where the walk of `capture_upvalue` stops: at the cell of the register, or between two cells. -/
theorem captureUpvalueLoop_cases (loc : Nat) (prev : Option Nat) {fuel : Nat} {uv : Option Nat}
    {rest : List Nat}
    (segment : Segment (fun u => (vm.uvs u).next) uv rest none)
    (alive : ∀ v ∈ rest, (vm.uvs v).isClosed = false)
    (descending : rest.Pairwise fun u v => (vm.uvs v).location < (vm.uvs u).location)
    (enough : rest.length < fuel) :
    (∃ u ∈ rest, (vm.uvs u).location = loc ∧
      captureUpvalueLoop vm loc fuel prev uv = some (u, vm)) ∨
    ∃ above below, rest = above ++ below ∧ (∀ v ∈ above, loc < (vm.uvs v).location) ∧
      (∀ v ∈ below, (vm.uvs v).location < loc) ∧ captureUpvalueLoop vm loc fuel prev uv =
        some (vm.uvCount, createUpvalue vm loc (above.getLast?.or prev) below.head?) := by
  induction rest generalizing fuel prev uv with
  | nil =>
    obtain ⟨fuel, rfl⟩ := Nat.exists_eq_succ_of_ne_zero (Nat.ne_of_gt enough)
    obtain rfl : uv = none := segment
    exact .inr ⟨[], [], rfl, nofun, nofun, rfl⟩
  | cons u rest ih =>
    obtain ⟨fuel, rfl⟩ := Nat.exists_eq_succ_of_ne_zero (Nat.ne_of_gt (Nat.lt_of_le_of_lt (Nat.zero_le _) enough))
    obtain rfl := segment.head_eq
    obtain ⟨lower, descending⟩ := List.pairwise_cons.1 descending
    have shut := alive u List.mem_cons_self
    rw [captureUpvalueLoop, if_neg (by simp [shut])]
    by_cases passes : loc < (vm.uvs u).location
    · rw [if_pos passes]
      have later := ih (some u) segment.2
        (fun v mem => alive v (List.mem_cons_of_mem _ mem)) descending (Nat.lt_of_succ_lt_succ enough)
      obtain ⟨v, mem, here, ran⟩ | ⟨above, below, rfl, high, low, ran⟩ := later
      · exact .inl ⟨v, List.mem_cons_of_mem _ mem, here, ran⟩
      · refine .inr ⟨u :: above, below, rfl, List.forall_mem_cons.2 ⟨passes, high⟩, low, ?_⟩
        rw [ran, List.getLast?_cons]
        cases above.getLast? <;> rfl
    · rw [if_neg passes]
      by_cases here : (vm.uvs u).location = loc
      · rw [if_pos here]
        exact .inl ⟨u, List.mem_cons_self, here, rfl⟩
      · rw [if_neg here]
        have low := Nat.lt_of_le_of_ne (Nat.not_lt.1 passes) here
        exact .inr ⟨[], u :: rest, rfl, nofun,
          List.forall_mem_cons.2 ⟨low, fun v mem => Nat.lt_trans (lower v mem) low⟩, rfl⟩

theorem createUpvalue_uvs (vm : Vm) (loc : Nat) (prev uv : Option Nat)
    (known : ∀ p, prev = some p → p < vm.uvCount) :
    ((createUpvalue vm loc prev uv).uvs vm.uvCount).location = loc ∧
    ((createUpvalue vm loc prev uv).uvs vm.uvCount).isClosed = false ∧
    ∀ u, u ≠ vm.uvCount → ((createUpvalue vm loc prev uv).uvs u).location = (vm.uvs u).location ∧
      ((createUpvalue vm loc prev uv).uvs u).isClosed = (vm.uvs u).isClosed := by
  cases prev with
  | none =>
    refine ⟨by simp [createUpvalue], by simp [createUpvalue], fun u here => ?_⟩
    simp [createUpvalue, Function.update_of_ne here]
  | some p =>
    have apart : p ≠ vm.uvCount := Nat.ne_of_lt (known p rfl)
    refine ⟨?_, ?_, fun u here => ?_⟩
    · simp [createUpvalue, Function.update_of_ne apart.symm]
    · simp [createUpvalue, Function.update_of_ne apart.symm]
    · by_cases prior : u = p
      · subst prior
        simp [createUpvalue, Function.update_of_ne here]
      · simp [createUpvalue, Function.update_of_ne here, Function.update_of_ne prior]

@[simp] theorem createUpvalue_uvCount (vm : Vm) (loc : Nat) (prev uv : Option Nat) :
    (createUpvalue vm loc prev uv).uvCount = vm.uvCount + 1 := by
  cases prev <;> rfl

@[simp] theorem createUpvalue_frames (vm : Vm) (loc : Nat) (prev uv : Option Nat) :
    (createUpvalue vm loc prev uv).frames = vm.frames := by
  cases prev <;> rfl

theorem OpenList.create {above below : List Nat} (list : OpenList vm (above ++ below))
    (high : ∀ v ∈ above, loc < (vm.uvs v).location) (low : ∀ v ∈ below, (vm.uvs v).location < loc) :
    OpenList (createUpvalue vm loc above.getLast? below.head?) (above ++ vm.uvCount :: below) := by
  have known : ∀ v ∈ above ++ below, v < vm.uvCount := fun v mem => ((list.mem v).1 mem).1
  have fresh : vm.uvCount ∉ above ++ below := fun mem => Nat.lt_irrefl _ (known _ mem)
  obtain ⟨loc', alive, same⟩ := createUpvalue_uvs vm loc above.getLast? below.head?
    fun p last => known p (List.mem_append_left _ (List.mem_of_getLast? last))
  have located : ∀ v ∈ above ++ below,
      ((createUpvalue vm loc above.getLast? below.head?).uvs v).location = (vm.uvs v).location :=
    fun v mem => (same v (Nat.ne_of_lt (known v mem))).1
  refine ⟨?_, ?_, fun u => ?_⟩
  · obtain ⟨mid, first, second⟩ := list.linked.split
    obtain rfl : mid = below.head? := second.head?_eq
    obtain rfl | ⟨init, p, rfl⟩ := above.eq_nil_or_concat
    · refine Segment.cons (by simp [createUpvalue]) (second.congr fun v mem => ?_)
      have apart : v ≠ vm.uvCount := Nat.ne_of_lt (known v (List.mem_append_right _ mem))
      simp [createUpvalue, Function.update_of_ne apart]
    · rw [List.concat_eq_append] at *
      have linked := first.insert second fresh list.nodup
      have head : (createUpvalue vm loc (init ++ [p]).getLast? below.head?).openUpvalues =
          vm.openUpvalues := by
        simp [createUpvalue]
      rw [head]
      have links : (fun u => ((createUpvalue vm loc (init ++ [p]).getLast? below.head?).uvs u).next) =
          Function.update (Function.update (fun u => (vm.uvs u).next) vm.uvCount below.head?) p
            (some vm.uvCount) := by
        funext u
        simp only [createUpvalue, List.getLast?_append, List.getLast?_singleton, Option.some_or]
        by_cases atP : u = p
        · subst atP
          simp
        · by_cases atNew : u = vm.uvCount
          · subst atNew
            simp [Function.update_of_ne atP]
          · simp [Function.update_of_ne atP, Function.update_of_ne atNew]
      rw [links]
      exact linked
  · refine List.pairwise_append.2 ?_
    obtain ⟨first, second, cross⟩ := List.pairwise_append.1 list.descending
    refine ⟨first.imp_of_mem fun {u v} memU memV lower => ?_, List.pairwise_cons.2 ⟨fun v mem => ?_,
      second.imp_of_mem fun {u v} memU memV lower => ?_⟩, fun u memU v memV => ?_⟩
    · rw [located u (List.mem_append_left _ memU), located v (List.mem_append_left _ memV)]
      exact lower
    · rw [loc', located v (List.mem_append_right _ mem)]
      exact low v mem
    · rw [located u (List.mem_append_right _ memU), located v (List.mem_append_right _ memV)]
      exact lower
    · rw [located u (List.mem_append_left _ memU)]
      obtain rfl | memV := List.mem_cons.1 memV
      · rw [loc']
        exact high u memU
      · rw [located v (List.mem_append_right _ memV)]
        exact cross u memU v memV
  · rw [IsOpen, createUpvalue_uvCount]
    by_cases here : u = vm.uvCount
    · subst here
      simp [alive]
    · have whole := list.mem u
      simp only [List.mem_append, IsOpen] at whole
      simp only [List.mem_append, List.mem_cons, here, false_or, whole, (same u here).2]
      refine and_congr_left fun _ => ⟨Nat.lt_succ_of_lt, fun known => ?_⟩
      exact Nat.lt_of_le_of_ne (Nat.le_of_lt_succ known) here

theorem OpenList.capture_found (list : OpenList vm xs) (isOpen : IsOpen vm u) :
    captureUpvalue vm (vm.uvs u).location = some (u, vm) := by
  have mem := (list.mem u).2 isOpen
  obtain ⟨v, memV, here, ran⟩ | ⟨above, below, rfl, high, low, -⟩ :=
    captureUpvalueLoop_cases (vm.uvs u).location none list.linked
      (fun v mem => ((list.mem v).1 mem).2) list.descending (Nat.lt_succ_of_le list.length_le)
  · rw [captureUpvalue, ran]
    rw [list.location_inj memV mem here]
  · obtain mem | mem := List.mem_append.1 mem
    · exact absurd (high u mem) (Nat.lt_irrefl _)
    · exact absurd (low u mem) (Nat.lt_irrefl _)

/-- Any other register gets a new one, in its place in the list. -/
theorem OpenList.capture_new (list : OpenList vm xs)
    (free : ∀ u, IsOpen vm u → (vm.uvs u).location ≠ loc) :
    ∃ vm' ys, captureUpvalue vm loc = some (vm.uvCount, vm') ∧ OpenList vm' ys ∧
      vm'.frames = vm.frames ∧ vm'.uvCount = vm.uvCount + 1 ∧
      ∀ v ∈ ys, (vm'.uvs v).location = loc ∨ v ∈ xs ∧ (vm'.uvs v).location = (vm.uvs v).location := by
  obtain ⟨v, memV, here, -⟩ | ⟨above, below, rfl, high, low, ran⟩ :=
    captureUpvalueLoop_cases loc none list.linked
      (fun v mem => ((list.mem v).1 mem).2) list.descending (Nat.lt_succ_of_le list.length_le)
  · exact absurd here (free v ((list.mem v).1 memV))
  · rw [Option.or_none] at ran
    refine ⟨_, _, ran, list.create high low, createUpvalue_frames _ _ _ _,
      createUpvalue_uvCount _ _ _ _, fun v mem => ?_⟩
    have known : ∀ v ∈ above ++ below, v < vm.uvCount := fun v mem => ((list.mem v).1 mem).1
    obtain ⟨loc', -, same⟩ := createUpvalue_uvs vm loc above.getLast? below.head?
      fun p last => known p (List.mem_append_left _ (List.mem_of_getLast? last))
    by_cases new : v = vm.uvCount
    · subst new
      exact .inl loc'
    · refine .inr ⟨?_, (same v new).1⟩
      simp only [List.mem_append, List.mem_cons, new, false_or] at mem
      exact List.mem_append.2 mem

end Chaaya.Upvalue
