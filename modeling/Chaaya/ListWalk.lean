import Mathlib

/-! The walks over the cdrs of a value: `list?`, `length`, `proper-list?`, `dotted-list?` and
`length+`. A loop gets as many turns as it is given, and may need more. -/

namespace Chaaya.ListWalk

inductive Value
  | nil
  | pair (a : Nat)
  | other (n : Nat)
deriving DecidableEq, Repr

/-- The cars and cdrs of the pairs. -/
abbrev Heap := List (Value × Value)

/-- The cdr of a pair, and nothing for what is no pair. -/
def Heap.cdr (h : Heap) : Value → Option Value
  | .pair a => h[a]?.map Prod.snd
  | _ => none

inductive Answer
  | bool (b : Bool)
  | fixnum (n : Nat)
deriving DecidableEq, Repr

variable (h : Heap)

/-- The loop of `list_length` with room for that many pairs. -/
def lengthLoop : Nat → Value → Nat → Option Nat
  | room, p, n =>
    match h.cdr p with
    | none => if p = .nil then some n else none
    | some q =>
      match room with
      | 0 => none
      | room + 1 => lengthLoop room q (n + 1)
termination_by structural room => room

def listLength (v : Value) : Option Nat := lengthLoop h 1000000 v 0

def primLength (v : Value) : Except String Nat :=
  match listLength h v with
  | some n => .ok n
  | none => .error "length: not a proper list"

def primListP (v : Value) : Bool := (listLength h v).isSome

/-- The loop of `prim_proper_list_p`. `slow` is behind `fast` and a pair while `fast` is one. -/
def properLoop : Nat → Value → Value → Option Bool
  | 0, _, _ => none
  | turns + 1, slow, fast =>
    match h.cdr fast with
    | none => some (slow = .nil)
    | some fast =>
      match h.cdr fast with
      | none => some (fast = .nil)
      | some fast =>
        let slow := (h.cdr slow).getD slow
        if slow = fast then some false else properLoop turns slow fast

def primProperListP (turns : Nat) (v : Value) : Option Bool := properLoop h turns v v

def dottedLoop : Nat → Value → Option Bool
  | 0, _ => none
  | turns + 1, p =>
    match h.cdr p with
    | none => some (p ≠ .nil)
    | some q => dottedLoop turns q

def primDottedListP (turns : Nat) (v : Value) : Option Bool :=
  if v = .nil then some false else dottedLoop h turns v

def lengthPlusLoop : Nat → Value → Nat → Option Answer
  | 0, _, _ => none
  | turns + 1, p, n =>
    match h.cdr p with
    | none => some (.fixnum n)
    | some q => lengthPlusLoop turns q (n + 1)

def primLengthPlus (turns : Nat) (v : Value) : Option Answer :=
  match h.cdr v with
  | none => some (.fixnum 0)
  | some _ => lengthPlusLoop h turns v 0

/-! ### Chains of cdrs -/

/-- The chain of a value has `n` pairs and ends in `z`. -/
inductive Chain : Value → Nat → Value → Prop
  | stop {v : Value} : h.cdr v = none → Chain v 0 v
  | hop {v w z : Value} {n : Nat} : h.cdr v = some w → Chain w n z → Chain v (n + 1) z

def Ends (v : Value) : Prop := ∃ n z, Chain h v n z

/-- The `k`-th cdr. -/
def tail : Nat → Value → Option Value
  | 0, v => some v
  | k + 1, v => (h.cdr v).bind (tail k)

/-- A pair comes back. -/
def Circular (v : Value) : Prop :=
  ∃ i j p, i < j ∧ tail h i v = some p ∧ tail h j v = some p

variable {h} {v w z : Value} {m n : Nat}

theorem Chain.unique (chain : Chain h v n z) {m : Nat} {w : Value} (other : Chain h v m w) :
    n = m ∧ z = w := by
  induction chain generalizing m w with
  | stop last =>
    cases other with
    | stop => exact ⟨rfl, rfl⟩
    | hop more => rw [last] at more; cases more
  | hop more _ ih =>
    cases other with
    | stop last => rw [last] at more; cases more
    | hop more' rest =>
      rw [more] at more'
      cases more'
      obtain ⟨rfl, rfl⟩ := ih rest
      exact ⟨rfl, rfl⟩

theorem Chain.eq_nil_iff (chain : Chain h v n z) : v = .nil ↔ n = 0 ∧ z = .nil := by
  cases chain with
  | stop => simp
  | hop more =>
    refine iff_of_false ?_ (by simp)
    rintro rfl
    cases more

theorem tail_chain {k : Nat} (chain : Chain h v n z) (tailed : tail h k v = some w) :
    ∃ m, Chain h w m z ∧ n = k + m := by
  induction k generalizing v n with
  | zero =>
    cases tailed
    exact ⟨n, chain, (Nat.zero_add n).symm⟩
  | succ k ih =>
    obtain ⟨u, first, rest⟩ := Option.bind_eq_some_iff.mp tailed
    cases chain with
    | stop last => rw [last] at first; cases first
    | hop more chain =>
      rw [more] at first
      cases first
      obtain ⟨m, chain', rfl⟩ := ih chain rest
      exact ⟨m, chain', Nat.add_right_comm ..⟩

theorem not_ends_of_circular (circular : Circular h v) : ¬Ends h v := by
  obtain ⟨i, j, p, less, first, second⟩ := circular
  rintro ⟨n, z, chain⟩
  obtain ⟨m, left, rfl⟩ := tail_chain chain first
  obtain ⟨m', right, same⟩ := tail_chain chain second
  have := (left.unique right).1
  omega

/-! ### Chains without an end -/

theorem next_of_not_ends (endless : ¬Ends h v) :
    ∃ a w, v = .pair a ∧ a < h.length ∧ h.cdr v = some w ∧ ¬Ends h w := by
  cases next : h.cdr v with
  | none => exact absurd ⟨0, v, .stop next⟩ endless
  | some w =>
    cases v with
    | nil => cases next
    | other => cases next
    | pair a =>
      refine ⟨a, w, rfl, ?_, rfl, fun ⟨n, z, chain⟩ => endless ⟨n + 1, z, .hop next chain⟩⟩
      obtain ⟨cell, found, -⟩ := Option.map_eq_some_iff.mp next
      exact (List.getElem?_eq_some_iff.mp found).1

theorem tail_of_not_ends (endless : ¬Ends h v) (k : Nat) :
    ∃ a, a < h.length ∧ tail h k v = some (.pair a) ∧ ¬Ends h (.pair a) := by
  induction k generalizing v with
  | zero =>
    obtain ⟨a, w, rfl, small, -, -⟩ := next_of_not_ends endless
    exact ⟨a, small, rfl, endless⟩
  | succ k ih =>
    obtain ⟨a, w, -, -, next, more⟩ := next_of_not_ends endless
    obtain ⟨b, small, tailed, endless'⟩ := ih more
    exact ⟨b, small, by rw [tail, next, Option.bind_some, tailed], endless'⟩

/-- There are finitely many pairs, so one comes back. -/
theorem circular_of_not_ends (endless : ¬Ends h v) : Circular h v := by
  choose at' small tailed _ using tail_of_not_ends endless
  obtain ⟨i, j, apart, same⟩ := Finite.exists_ne_map_eq_of_infinite
    fun k => (⟨at' k, small k⟩ : Fin h.length)
  have same : at' i = at' j := congrArg Fin.val same
  rcases Nat.lt_or_gt_of_ne apart with less | more
  · exact ⟨i, j, _, less, tailed i, same ▸ tailed j⟩
  · exact ⟨j, i, _, more, tailed j, same ▸ tailed i⟩

/-! ### Results -/

/-- A loop comes to a result, and more turns do not change it. -/
def Gives {α : Type} (loop : Nat → Option α) (result : α) : Prop :=
  ∃ turns, ∀ more, turns ≤ more → loop more = some result

theorem Gives.unique {α : Type} {loop : Nat → Option α} {a b : α} (left : Gives loop a)
    (right : Gives loop b) : a = b := by
  obtain ⟨i, from'⟩ := left
  obtain ⟨j, onwards⟩ := right
  exact Option.some.inj ((from' (i + j) (by omega)).symm.trans (onwards (i + j) (by omega)))

theorem not_gives {α : Type} {loop : Nat → Option α} (never : ∀ turns, loop turns = none) (a : α) :
    ¬Gives loop a := by
  rintro ⟨turns, done⟩
  have := done turns (Nat.le_refl _)
  rw [never] at this
  cases this

/-! `list?` and `length` -/

theorem lengthLoop_chain (chain : Chain h v n z) (room acc : Nat) :
    lengthLoop h room v acc = if n ≤ room ∧ z = .nil then some (acc + n) else none := by
  induction chain generalizing room acc with
  | @stop v last =>
    rw [lengthLoop, last]
    simp
  | @hop v w z n more _ ih =>
    rw [lengthLoop, more]
    cases room with
    | zero => simp
    | succ room =>
      dsimp only
      rw [ih]
      simp only [Nat.add_le_add_iff_right, Nat.add_right_comm, Nat.add_assoc]

/-! `dotted-list?` and `length+` -/

theorem dottedLoop_chain (chain : Chain h v n z) {turns : Nat} (enough : n < turns) :
    dottedLoop h turns v = some (decide (z ≠ .nil)) := by
  induction chain generalizing turns with
  | stop last =>
    obtain ⟨turns, rfl⟩ := Nat.exists_eq_add_of_lt enough
    rw [Nat.zero_add, dottedLoop, last]
  | hop more _ ih =>
    obtain ⟨turns, rfl⟩ := Nat.exists_eq_succ_of_ne_zero (Nat.ne_zero_of_lt enough)
    rw [dottedLoop, more]
    exact ih (by omega)

theorem dottedLoop_endless (endless : ¬Ends h v) (turns : Nat) : dottedLoop h turns v = none := by
  induction turns generalizing v with
  | zero => rfl
  | succ turns ih =>
    obtain ⟨a, w, -, -, next, more⟩ := next_of_not_ends endless
    rw [dottedLoop, next]
    exact ih more

theorem lengthPlusLoop_chain (chain : Chain h v n z) {turns : Nat} (enough : n < turns)
    (acc : Nat) : lengthPlusLoop h turns v acc = some (.fixnum (acc + n)) := by
  induction chain generalizing turns acc with
  | stop last =>
    obtain ⟨turns, rfl⟩ := Nat.exists_eq_add_of_lt enough
    rw [Nat.zero_add, lengthPlusLoop, last]
    rfl
  | @hop v w z n more _ ih =>
    obtain ⟨turns, rfl⟩ := Nat.exists_eq_succ_of_ne_zero (Nat.ne_zero_of_lt enough)
    rw [lengthPlusLoop, more]
    dsimp only
    rw [ih (by omega), Nat.add_right_comm, Nat.add_assoc]

/-! `proper-list?` -/

/-- On a chain that ends the hare never meets the tortoise. It ends at the end if it is behind an
odd number of pairs; otherwise the answer is that of the tortoise. -/
theorem properLoop_chain {slow fast : Value} (chain : Chain h fast n z) (behind : Chain h slow m z)
    (less : n ≤ m) {turns : Nat} (enough : n < turns) :
    properLoop h turns slow fast =
      some (decide (z = .nil ∧ (n % 2 = 1 ∨ m - n / 2 = 0))) := by
  induction n using Nat.strongRecOn generalizing slow fast m turns with
  | ind n ih =>
    obtain ⟨turns, rfl⟩ := Nat.exists_eq_succ_of_ne_zero (Nat.ne_zero_of_lt enough)
    cases chain with
    | stop last =>
      rw [properLoop, last]
      simp [behind.eq_nil_iff, and_comm]
    | @hop _ w _ n more rest =>
      rw [properLoop, more]
      dsimp only
      cases rest with
      | stop last =>
        rw [last]
        simp
      | @hop _ u _ n more' rest =>
        rw [more']
        cases behind with
        | stop => omega
        | @hop _ slow' _ m next behind =>
          rw [next]
          dsimp only [Option.getD_some]
          have apart : slow' ≠ u := by
            rintro rfl
            have := (behind.unique rest).1
            omega
          rw [if_neg apart, ih n (by omega) rest behind (by omega) (by omega)]
          have same : (n % 2 = 1 ∨ m - n / 2 = 0) ↔
              ((n + 1 + 1) % 2 = 1 ∨ m + 1 - (n + 1 + 1) / 2 = 0) := by omega
          simp only [same]

/-! ### Agreement -/

/-- All of them end, and tell the three kinds of values apart. -/
structure Agrees (h : Heap) (v : Value) : Prop where
  listP : primListP h v = true ↔ ∃ n, Chain h v n .nil
  properList : ∃ b, Gives (primProperListP h · v) b ∧ (b = true ↔ ∃ n, Chain h v n .nil)
  dottedList : ∃ b, Gives (primDottedListP h · v) b ∧
    (b = true ↔ ∃ n z, Chain h v n z ∧ z ≠ .nil)
  length : ∀ n, primLength h v = .ok n ↔ Chain h v n .nil
  lengthPlus : ∃ a, Gives (primLengthPlus h · v) a ∧ (a = .bool false ↔ Circular h v)

theorem listLength_chain (chain : Chain h v n z) :
    listLength h v = if n ≤ 1000000 ∧ z = .nil then some n else none := by
  rw [listLength, lengthLoop_chain chain, Nat.zero_add]

theorem properList_gives (chain : Chain h v n z) :
    Gives (primProperListP h · v) (decide (z = .nil ∧ (n % 2 = 1 ∨ n = 0))) := by
  refine ⟨n + 1, fun more enough => ?_⟩
  have same : (n % 2 = 1 ∨ n - n / 2 = 0) ↔ (n % 2 = 1 ∨ n = 0) := by omega
  dsimp only
  rw [primProperListP, properLoop_chain chain chain (Nat.le_refl _) (by omega)]
  simp only [same]

theorem dottedList_gives (chain : Chain h v n z) :
    Gives (primDottedListP h · v) (decide (z ≠ .nil)) := by
  refine ⟨n + 1, fun more enough => ?_⟩
  dsimp only
  rw [primDottedListP]
  split
  · rename_i same
    rw [(chain.eq_nil_iff.mp same).2]
    rfl
  · exact dottedLoop_chain chain (by omega)

theorem lengthPlus_gives (chain : Chain h v n z) : Gives (primLengthPlus h · v) (.fixnum n) := by
  refine ⟨n + 1, fun more enough => ?_⟩
  dsimp only
  rw [primLengthPlus]
  cases chain with
  | stop last => rw [last]
  | hop next rest =>
    rw [next]
    dsimp only
    rw [lengthPlusLoop_chain (.hop next rest) (by omega), Nat.zero_add]

theorem not_agrees_of_circular (circular : Circular h v) : ¬Agrees h v := by
  intro agrees
  have endless := not_ends_of_circular circular
  obtain ⟨b, gives, -⟩ := agrees.dottedList
  refine not_gives (fun turns => ?_) b gives
  obtain ⟨a, w, rfl, -⟩ := next_of_not_ends endless
  rw [primDottedListP, if_neg (by exact nofun)]
  exact dottedLoop_endless endless turns

theorem not_circular_of_chain (chain : Chain h v n z) : ¬Circular h v :=
  fun circular => not_ends_of_circular circular ⟨n, z, chain⟩

theorem chain_nil_iff (chain : Chain h v n z) : (∃ m, Chain h v m .nil) ↔ z = .nil :=
  ⟨fun ⟨_, other⟩ => (chain.unique other).2, fun same => ⟨n, same ▸ chain⟩⟩

/-- They agree on a value that is no list, and on a list that is short and has an odd number of
pairs or none. -/
theorem agrees_iff (h : Heap) (v : Value) : Agrees h v ↔
    ∃ n z, Chain h v n z ∧ (z = .nil → n ≤ 1000000 ∧ (n % 2 = 1 ∨ n = 0)) := by
  constructor
  · intro agrees
    by_cases ends : Ends h v
    · obtain ⟨n, z, chain⟩ := ends
      refine ⟨n, z, chain, ?_⟩
      rintro rfl
      constructor
      · have proper := agrees.listP.mpr ⟨n, chain⟩
        rw [primListP, listLength_chain chain] at proper
        by_contra long
        rw [if_neg fun short => long short.1] at proper
        cases proper
      · obtain ⟨b, gives, proper⟩ := agrees.properList
        have answer := gives.unique (properList_gives chain)
        rw [answer, decide_eq_true_iff] at proper
        exact (proper.mpr ⟨n, chain⟩).2
    · exact absurd agrees (not_agrees_of_circular (circular_of_not_ends ends))
  · rintro ⟨n, z, chain, short⟩
    have list := listLength_chain chain
    refine ⟨?_, ⟨_, properList_gives chain, ?_⟩, ⟨_, dottedList_gives chain, ?_⟩, fun m => ?_,
      ⟨_, lengthPlus_gives chain, ?_⟩⟩
    · rw [primListP, list, chain_nil_iff chain]
      by_cases proper : z = .nil
      · rw [if_pos ⟨(short proper).1, proper⟩]
        exact iff_of_true rfl proper
      · rw [if_neg fun both => proper both.2]
        exact iff_of_false Bool.false_ne_true proper
    · rw [decide_eq_true_iff, chain_nil_iff chain]
      exact ⟨And.left, fun proper => ⟨proper, (short proper).2⟩⟩
    · rw [decide_eq_true_iff]
      refine ⟨fun other => ⟨n, z, chain, other⟩, ?_⟩
      rintro ⟨m, w, chain', other⟩
      rw [(chain.unique chain').2]
      exact other
    · rw [primLength, list]
      by_cases proper : z = .nil
      · rw [if_pos ⟨(short proper).1, proper⟩]
        subst proper
        refine ⟨?_, fun chain' => congrArg Except.ok (chain.unique chain').1⟩
        intro same
        cases same
        exact chain
      · rw [if_neg fun both => proper both.2]
        exact iff_of_false nofun fun chain' => proper (chain.unique chain').2
    · exact iff_of_false nofun (not_circular_of_chain chain)

theorem not_agrees : ¬Agrees [(.other 1, .pair 1), (.other 2, .nil)] (.pair 0) := by
  intro agrees
  obtain ⟨b, ⟨turns, gives⟩, proper⟩ := agrees.properList
  have own : primProperListP [(.other 1, .pair 1), (.other 2, .nil)] (turns + 2) (.pair 0) =
      some false := by
    rw [primProperListP, properLoop]
    rfl
  cases own.symm.trans (gives (turns + 2) (by omega))
  exact Bool.false_ne_true (proper.mpr ⟨2, .hop rfl (.hop rfl (.stop rfl))⟩)

end Chaaya.ListWalk
