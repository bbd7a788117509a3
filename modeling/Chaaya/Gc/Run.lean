import Chaaya.Gc.Collect
import Chaaya.Transition

/-! Programs on the collected heap. The code of the runtime names only objects that it
reaches, or that it was handed since the last collection: a collection leaves it what the
roots reach. -/

namespace Chaaya.Gc

open Transition

/-- `held` is what the C locals hold besides the registered roots. -/
structure World where
  gc : Collector
  held : List Value

def World.start (promotionAge : Nat) : World where
  gc :=
    { heap := fun _ => none, next := 0, young := [], old := [], marked := [], remembered := []
      vmRoots := [], roots := [], extraRoots := [], symbols := [], promotionAge := promotionAge }
  held := []

inductive Usable (w : World) : Value → Prop
  | immediate {v : Value} : (∀ a, v ≠ .pointer a) → Usable w v
  | held {v : Value} : v ∈ w.held → Usable w v
  | root {v : Value} : v ∈ w.gc.vmRoots ++ w.gc.roots ++ w.gc.extraRoots → Usable w v
  | symbol {a : Nat} : a ∈ w.gc.symbols → Usable w (.pointer a)
  | field {a : Nat} {o : Obj} {v : Value} :
      Usable w (.pointer a) → w.gc.heap a = some o → v ∈ o.content.references → Usable w v

inductive Label
  | alloc (content : Content)
  /-- A new symbol enters the intern table. -/
  | intern
  /-- New contents, with a reference given to the write barrier. -/
  | store (owner : Nat) (content : Content) (v : Value)
  /-- New contents without a barrier, as where an open upvalue's register is assigned. -/
  | write (owner : Nat) (content : Content)
  | push (v : Value)
  | popN (n : Nat)
  /-- The C variable behind a root is assigned. -/
  | assign (i : Nat) (v : Value)
  | setVm (vs : List Value)
  | setExtra (vs : List Value)
  | promote (a : Nat)
  | minor
  | major
deriving DecidableEq, Repr

/-- What a step may do: the code uses usable values, and pops no more roots than there are
(`ch_gc_pop_n` aborts on that). -/
def Enabled (w : World) : Label → Prop
  | .alloc content => ∀ v ∈ content.references, Usable w v
  | .store owner content v =>
    Usable w (.pointer owner) ∧ (∀ u ∈ content.references, Usable w u) ∧ Usable w v
  | .write owner content =>
    Usable w (.pointer owner) ∧ ∀ u ∈ content.references, Usable w u
  | .push v => Usable w v
  | .popN n => n ≤ w.gc.roots.length
  | .assign _ v => Usable w v
  | .setVm vs | .setExtra vs => ∀ v ∈ vs, Usable w v
  | .promote a => Usable w (.pointer a)
  | .intern | .minor | .major => True

def write (s : Collector) (owner : Nat) (content : Content) : Option Collector :=
  (s.heap owner).map fun o =>
    { s with heap := Function.update s.heap owner (some { o with content := content }) }

/-- The references an object holds; the code may still hold them once they are overwritten. -/
def overwritten (s : Collector) (owner : Nat) : List Value :=
  ((s.heap owner).map fun o => o.content.references).getD []

def perform (w : World) : Label → Option World
  | .alloc content => some ⟨alloc w.gc content, .pointer w.gc.next :: w.held⟩
  | .intern =>
    some ⟨{ alloc w.gc (.plain [] []) with symbols := w.gc.symbols ++ [w.gc.next] }, w.held⟩
  | .store owner content v =>
    (store w.gc owner content v).map fun gc => ⟨gc, overwritten w.gc owner ++ w.held⟩
  | .write owner content =>
    (write w.gc owner content).map fun gc => ⟨gc, overwritten w.gc owner ++ w.held⟩
  | .push v => some { w with gc := { w.gc with roots := w.gc.roots ++ [v] } }
  | .popN n => some
      ⟨{ w.gc with roots := w.gc.roots.take (w.gc.roots.length - n) }, w.gc.roots ++ w.held⟩
  | .assign i v =>
    some ⟨{ w.gc with roots := w.gc.roots.set i v }, w.gc.roots ++ w.held⟩
  | .setVm vs => some ⟨{ w.gc with vmRoots := vs }, w.gc.vmRoots ++ w.held⟩
  | .setExtra vs => some ⟨{ w.gc with extraRoots := vs }, w.gc.extraRoots ++ w.held⟩
  | .promote a => (promoteToOld w.gc a).map fun gc => { w with gc := gc }
  | .minor => (collectMinor w.gc).map fun gc => ⟨gc, []⟩
  | .major => (collectMajor w.gc).map fun gc => ⟨gc, []⟩

def Step (w : World) (l : Label) (w' : World) : Prop := Enabled w l ∧ perform w l = some w'

/-! ### The invariant -/

structure Holds (w : World) (safe : Nat → Prop) : Prop where
  listed : Listed w.gc
  covers : Covers w.gc safe
  held : ∀ a ∈ pointers w.held, safe a

variable {w w' : World} {s : Collector} {safe : Nat → Prop}

theorem Holds.usable (holds : Holds w safe) {v : Value} (usable : Usable w v) :
    ∀ a, v = .pointer a → safe a := by
  induction usable with
  | immediate no => exact fun a eq => absurd eq (no a)
  | held mem => exact fun a eq => holds.held a (mem_pointers.mpr (eq ▸ mem))
  | root mem =>
    exact fun a eq => holds.covers.roots a
      (List.mem_append_left _ (mem_pointers.mpr (eq ▸ mem)))
  | symbol mem =>
    intro b eq
    cases eq
    exact holds.covers.roots _ (List.mem_append_right _ mem)
  | field _ there mem ih =>
    intro b eq
    obtain ⟨o, found, onward⟩ := holds.covers.closed.there _ (ih _ rfl)
    rw [there] at found
    cases found
    exact onward b (mem_pointers.mpr (eq ▸ mem))

theorem Holds.usables (holds : Holds w safe) {vs : List Value} (usable : ∀ v ∈ vs, Usable w v) :
    ∀ a ∈ pointers vs, safe a := fun a mem =>
  holds.usable (usable _ (mem_pointers.mp mem)) a rfl

theorem Covers.live (covers : Covers s safe) {a : Nat} (live : Live s a) : safe a := by
  induction live with
  | root mem => exact covers.roots _ mem
  | field _ there mem ih =>
    obtain ⟨o, found, onward⟩ := covers.closed.there _ ih
    rw [there] at found
    cases found
    exact onward _ (followed_subset _ mem)
  | ephemeron _ there _ eq ih _ =>
    obtain ⟨o, found, onward⟩ := covers.closed.there _ ih
    rw [there] at found
    cases found
    exact onward _ (mem_pointers.mpr (by simp [Content.references, eq]))

theorem Covers.there (covers : Covers s safe) {a : Nat} (live : Live s a) :
    ∃ o, s.heap a = some o := (covers.closed.there a (covers.live live)).imp fun _ found => found.1

/-! ### One step -/

section Operations

variable {a owner : Nat} {o : Obj} {content : Content}

theorem Listed.write (listed : Listed s) (there : s.heap owner = some o) (content : Content) :
    Listed { s with heap := Function.update s.heap owner (some { o with content := content }) } := by
  refine ⟨listed.distinct, fun a => ?_, fun a p found => ?_, listed.below, listed.unmarked,
    listed.remembered⟩
  · rw [← listed.allocated a]
    by_cases same : a = owner
    · simp [same, there]
    · simp [Function.update_of_ne same]
  · dsimp only at found
    by_cases same : a = owner
    · subst same
      rw [Function.update_self] at found
      cases found
      exact listed.generation a o there
    · rw [Function.update_of_ne same] at found
      exact listed.generation a p found

theorem Covers.write (covers : Covers s safe) (owner : Nat) (o : Obj)
    (fields : ∀ b ∈ pointers content.references, safe b) :
    Covers { s with heap := Function.update s.heap owner (some { o with content := content }) }
      safe := by
  refine ⟨⟨fun a here => ?_, covers.closed.listed⟩, covers.roots, covers.young,
    covers.remembered⟩
  by_cases same : a = owner
  · subst same
    exact ⟨_, Function.update_self _ _ _, fields⟩
  · dsimp only
    rw [Function.update_of_ne same]
    exact covers.closed.there a here

theorem Listed.remember (listed : Listed s) (old : owner ∈ s.old) :
    Listed (rememberedSetAdd s owner) :=
  ⟨listed.distinct, listed.allocated, listed.generation, listed.below, listed.unmarked,
    fun a mem => (List.mem_append.mp mem).elim (listed.remembered a)
      fun mem => List.mem_singleton.mp mem ▸ old⟩

theorem Covers.remember (covers : Covers s safe) (here : safe owner) :
    Covers (rememberedSetAdd s owner) safe :=
  ⟨⟨covers.closed.there, covers.closed.listed⟩, covers.roots, covers.young,
    fun a mem => (List.mem_append.mp mem).elim (covers.remembered a)
      fun mem => List.mem_singleton.mp mem ▸ here⟩

theorem Listed.alloc (listed : Listed s) (content : Content) : Listed (alloc s content) := by
  have fresh : s.next ∉ s.young ++ s.old := fun mem => Nat.lt_irrefl _ (listed.below _ mem)
  refine ⟨List.nodup_cons.mpr ⟨fresh, listed.distinct⟩, fun a => ?_, fun a o found => ?_,
    fun a mem => ?_, listed.unmarked, listed.remembered⟩
  · simp only [Gc.alloc, List.cons_append, List.mem_cons]
    rw [← listed.allocated a]
    by_cases same : a = s.next
    · simp [same]
    · simp [same]
  · simp only [Gc.alloc, List.mem_cons] at found ⊢
    by_cases same : a = s.next
    · rw [same, Function.update_self] at found
      cases found
      exact iff_of_true rfl (.inl same)
    · rw [Function.update_of_ne same] at found
      rw [listed.generation a o found]
      exact (or_iff_right same).symm
  · rcases List.mem_cons.mp mem with rfl | mem
    · exact Nat.lt_succ_self _
    · exact Nat.lt_succ_of_lt (listed.below a mem)

theorem Covers.alloc (covers : Covers s safe)
    (fields : ∀ b ∈ pointers content.references, safe b) :
    Covers (alloc s content) fun a => safe a ∨ a = s.next := by
  refine ⟨⟨fun a here => ?_, fun a here => ?_⟩, fun a mem => .inl (covers.roots a mem),
    fun a mem => ?_, fun a mem => .inl (covers.remembered a mem)⟩
  · simp only [Gc.alloc]
    by_cases same : a = s.next
    · rw [same, Function.update_self]
      exact ⟨_, rfl, fun b mem => .inl (fields b mem)⟩
    · rw [Function.update_of_ne same]
      obtain ⟨o, found, onward⟩ := covers.closed.there a (here.resolve_right same)
      exact ⟨o, found, fun b mem => .inl (onward b mem)⟩
  · exact List.mem_cons.mpr (here.symm.imp_right (covers.closed.listed a))
  · exact (List.mem_cons.mp mem).symm.imp_left (covers.young a)

theorem writeBarrier_spec (listed : Listed s) (covers : Covers s safe) (here : safe owner)
    {v : Value} (value : ∀ a, v = .pointer a → safe a) :
    ∃ s', writeBarrier s owner v = some s' ∧ Listed s' ∧ Covers s' safe ∧ s'.heap = s.heap := by
  obtain ⟨o, found, _⟩ := covers.closed.there owner here
  cases generation : o.generation with
  | young => exact ⟨s, by simp [writeBarrier, found, generation], listed, covers, rfl⟩
  | old =>
    cases v with
    | pointer child =>
      obtain ⟨c, child, _⟩ := covers.closed.there child (value child rfl)
      have old : owner ∈ s.old := by
        refine (List.mem_append.mp ((listed.allocated owner).mp ⟨o, found⟩)).resolve_left ?_
        rw [← listed.generation owner o found, generation]
        nofun
      by_cases young : c.generation = .young
      · exact ⟨rememberedSetAdd s owner, by simp [writeBarrier, found, generation, child, young],
          listed.remember old, covers.remember here, rfl⟩
      · exact ⟨s, by simp [writeBarrier, found, generation, child, young], listed, covers, rfl⟩
    | _ => exact ⟨s, by simp [writeBarrier, found, generation], listed, covers, rfl⟩

theorem store_spec (listed : Listed s) (covers : Covers s safe) (here : safe owner)
    (fields : ∀ b ∈ pointers content.references, safe b) {v : Value}
    (value : ∀ a, v = .pointer a → safe a) :
    ∃ s', store s owner content v = some s' ∧ Listed s' ∧ Covers s' safe := by
  obtain ⟨o, found, _⟩ := covers.closed.there owner here
  obtain ⟨s', ran, listed', covers', _⟩ := writeBarrier_spec (listed.write found content)
    (covers.write owner o fields) here value
  exact ⟨s', by rw [store, found]; exact ran, listed', covers'⟩

theorem promoteToOld_spec (listed : Listed s) (covers : Covers s safe) (here : safe a) :
    ∃ s', promoteToOld s a = some s' ∧ Listed s' ∧ Covers s' safe := by
  obtain ⟨o, found, onward⟩ := covers.closed.there a here
  rw [promoteToOld, found]
  dsimp only
  split
  · rename_i young
    have parts := List.nodup_append.mp listed.distinct
    have perm : (s.young.erase a ++ a :: s.old).Perm (s.young ++ s.old) :=
      List.perm_middle.trans ((List.perm_cons_erase young.2).symm.append_right s.old)
    let s₁ : Collector := { s with
      young := s.young.erase a
      heap := Function.update s.heap a (some { o with generation := .old, age := 0 })
      old := a :: s.old }
    have listed₁ : Listed s₁ := by
      refine ⟨perm.nodup_iff.mpr listed.distinct, fun b => ?_, fun b p found' => ?_,
        fun b mem => listed.below b (perm.mem_iff.mp mem), listed.unmarked,
        fun b mem => List.mem_cons_of_mem _ (listed.remembered b mem)⟩
      · rw [perm.mem_iff, ← listed.allocated b]
        by_cases same : b = a
        · simp [s₁, same, found]
        · simp [s₁, Function.update_of_ne same]
      · by_cases same : b = a
        · subst same
          simp only [s₁, Function.update_self] at found'
          cases found'
          exact iff_of_false nofun parts.1.not_mem_erase
        · simp only [s₁, Function.update_of_ne same] at found'
          rw [listed.generation b p found']
          exact (List.mem_erase_of_ne same).symm
    have covers₁ : Covers s₁ safe := by
      refine ⟨⟨fun b here' => ?_, fun b here' => perm.mem_iff.mpr (covers.closed.listed b here')⟩,
        covers.roots, fun b mem => covers.young b (List.mem_of_mem_erase mem), covers.remembered⟩
      by_cases same : b = a
      · subst same
        exact ⟨_, Function.update_self _ _ _, onward⟩
      · simp only [s₁, Function.update_of_ne same]
        exact covers.closed.there b here'
    have fields : ∀ b ∈ pointers o.content.watched, ∃ p, s₁.heap b = some p := fun b mem =>
      (covers₁.closed.there b (onward b (watched_subset _ mem))).imp fun _ found => found.1
    obtain ⟨r, looked⟩ := referencesYoung_spec fields
    refine ⟨if r then rememberedSetAdd s₁ a else s₁, by simp only [looked, Option.map_some, s₁], ?_⟩
    cases r with
    | true => exact ⟨listed₁.remember List.mem_cons_self, covers₁.remember here⟩
    | false => exact ⟨listed₁, covers₁⟩
  · exact ⟨s, rfl, listed, covers⟩

theorem Listed.roots (listed : Listed s) (vmRoots roots extraRoots : List Value) :
    Listed { s with vmRoots := vmRoots, roots := roots, extraRoots := extraRoots } :=
  ⟨listed.distinct, listed.allocated, listed.generation, listed.below, listed.unmarked,
    listed.remembered⟩

/-- New roots; the old ones may still be held. -/
theorem Holds.roots (holds : Holds w safe) {vmRoots roots extraRoots held : List Value}
    (usable : ∀ v ∈ vmRoots ++ roots ++ extraRoots, ∀ a, v = .pointer a → safe a)
    (before : ∀ v ∈ held, v ∈ w.gc.vmRoots ++ w.gc.roots ++ w.gc.extraRoots) :
    Holds
      ⟨{ w.gc with vmRoots := vmRoots, roots := roots, extraRoots := extraRoots }, held ++ w.held⟩
      safe := by
  have covers := holds.covers
  refine ⟨holds.listed.roots _ _ _, ⟨⟨covers.closed.there, covers.closed.listed⟩, fun a mem => ?_,
    covers.young, covers.remembered⟩, fun a mem => ?_⟩
  · rcases List.mem_append.mp mem with mem | mem
    · exact usable _ (mem_pointers.mp mem) a rfl
    · exact covers.roots a (List.mem_append_right _ mem)
  · rcases List.mem_append.mp (mem_pointers.mp mem) with mem | mem
    · exact covers.roots a (List.mem_append_left _ (mem_pointers.mpr (before _ mem)))
    · exact holds.held a (mem_pointers.mpr mem)

end Operations

theorem Holds.live {safe' : Nat → Prop} (holds : Holds w safe) (holds' : Holds w' safe')
    (mono : ∀ a, safe a → safe' a) : ∀ a, Live w.gc a → ∃ o, w'.gc.heap a = some o :=
  fun a live => (holds'.covers.closed.there a (mono a (holds.covers.live live))).imp
    fun _ found => found.1

theorem Holds.overwritten (holds : Holds w safe) {owner : Nat} (here : safe owner) :
    ∀ a ∈ pointers (overwritten w.gc owner ++ w.held), safe a := by
  intro a mem
  obtain ⟨o, found, onward⟩ := holds.covers.closed.there owner here
  rcases List.mem_append.mp (mem_pointers.mp mem) with mem | mem
  · simp only [Gc.overwritten, found, Option.map_some, Option.getD_some] at mem
    exact onward a (mem_pointers.mpr mem)
  · exact holds.held a (mem_pointers.mpr mem)

theorem perform_spec (holds : Holds w safe) {l : Label} (enabled : Enabled w l) :
    ∃ w', perform w l = some w' ∧ (∃ safe', Holds w' safe') ∧
      ∀ a, Live w.gc a → ∃ o, w'.gc.heap a = some o := by
  have listed := holds.listed
  have covers := holds.covers
  have root : ∀ v ∈ w.gc.vmRoots ++ w.gc.roots ++ w.gc.extraRoots, ∀ a, v = .pointer a → safe a :=
    fun v mem => holds.usable (.root mem)
  cases l with
  | alloc content =>
    have holds' : Holds ⟨alloc w.gc content, .pointer w.gc.next :: w.held⟩
        fun a => safe a ∨ a = w.gc.next := by
      refine ⟨listed.alloc content, covers.alloc (holds.usables enabled), fun a mem => ?_⟩
      rcases List.mem_cons.mp (mem_pointers.mp mem) with eq | mem
      · cases eq
        exact .inr rfl
      · exact .inl (holds.held a (mem_pointers.mpr mem))
    exact ⟨_, rfl, ⟨_, holds'⟩, holds.live holds' fun _ => .inl⟩
  | intern =>
    have listed' := listed.alloc (.plain [] [])
    have covers' : Covers (alloc w.gc (.plain [] [])) _ := covers.alloc nofun
    have holds' : Holds ⟨{ alloc w.gc (.plain [] []) with
        symbols := w.gc.symbols ++ [w.gc.next] }, w.held⟩ fun a => safe a ∨ a = w.gc.next := by
      refine ⟨⟨listed'.distinct, listed'.allocated, listed'.generation, listed'.below,
        listed'.unmarked, listed'.remembered⟩, ⟨⟨covers'.closed.there, covers'.closed.listed⟩,
        fun a mem => ?_, covers'.young, covers'.remembered⟩, fun a mem => .inl (holds.held a mem)⟩
      rcases List.mem_append.mp mem with mem | mem
      · exact .inl (covers.roots a (List.mem_append_left _ mem))
      · rcases List.mem_append.mp mem with mem | mem
        · exact .inl (covers.roots a (List.mem_append_right _ mem))
        · exact .inr (List.mem_singleton.mp mem)
    exact ⟨_, rfl, ⟨_, holds'⟩, holds.live holds' fun _ => .inl⟩
  | store owner content v =>
    obtain ⟨here, fields, value⟩ := enabled
    have here := holds.usable here owner rfl
    obtain ⟨s', ran, listed', covers'⟩ :=
      store_spec listed covers here (holds.usables fields) (holds.usable value)
    have holds' : Holds ⟨s', overwritten w.gc owner ++ w.held⟩ safe :=
      ⟨listed', covers', holds.overwritten here⟩
    exact ⟨_, by rw [perform, ran]; rfl, ⟨_, holds'⟩, holds.live holds' fun _ => id⟩
  | write owner content =>
    have here := holds.usable enabled.1 owner rfl
    obtain ⟨o, found, _⟩ := covers.closed.there owner here
    have holds' : Holds ⟨{ w.gc with
        heap := Function.update w.gc.heap owner (some { o with content := content }) },
        overwritten w.gc owner ++ w.held⟩ safe :=
      ⟨listed.write found content, covers.write owner o (holds.usables enabled.2),
        holds.overwritten here⟩
    exact ⟨_, by rw [perform, write, found]; rfl, ⟨_, holds'⟩, holds.live holds' fun _ => id⟩
  | push v =>
    have holds' : Holds ⟨{ w.gc with roots := w.gc.roots ++ [v] }, [] ++ w.held⟩ safe := by
      refine holds.roots (fun u mem => ?_) nofun
      simp only [List.mem_append, List.mem_singleton] at mem root
      rcases mem with (mem | mem | rfl) | mem
      · exact root u (.inl (.inl mem))
      · exact root u (.inl (.inr mem))
      · exact holds.usable enabled
      · exact root u (.inr mem)
    exact ⟨_, rfl, ⟨_, holds'⟩, holds.live holds' fun _ => id⟩
  | popN n =>
    have holds' : Holds ⟨{ w.gc with roots := w.gc.roots.take (w.gc.roots.length - n) },
        w.gc.roots ++ w.held⟩ safe := by
      refine holds.roots (fun u mem => ?_) fun u mem => by simp [mem]
      simp only [List.mem_append] at mem root
      rcases mem with (mem | mem) | mem
      · exact root u (.inl (.inl mem))
      · exact root u (.inl (.inr (List.mem_of_mem_take mem)))
      · exact root u (.inr mem)
    exact ⟨_, rfl, ⟨_, holds'⟩, holds.live holds' fun _ => id⟩
  | assign i v =>
    have holds' : Holds ⟨{ w.gc with roots := w.gc.roots.set i v }, w.gc.roots ++ w.held⟩
        safe := by
      refine holds.roots (fun u mem => ?_) fun u mem => by simp [mem]
      simp only [List.mem_append] at mem root
      rcases mem with (mem | mem) | mem
      · exact root u (.inl (.inl mem))
      · rcases List.mem_or_eq_of_mem_set mem with mem | rfl
        · exact root u (.inl (.inr mem))
        · exact holds.usable enabled
      · exact root u (.inr mem)
    exact ⟨_, rfl, ⟨_, holds'⟩, holds.live holds' fun _ => id⟩
  | setVm vs =>
    have holds' : Holds ⟨{ w.gc with vmRoots := vs }, w.gc.vmRoots ++ w.held⟩ safe := by
      refine holds.roots (fun u mem => ?_) fun u mem => by simp [mem]
      simp only [List.mem_append] at mem root
      rcases mem with (mem | mem) | mem
      · exact holds.usable (enabled u mem)
      · exact root u (.inl (.inr mem))
      · exact root u (.inr mem)
    exact ⟨_, rfl, ⟨_, holds'⟩, holds.live holds' fun _ => id⟩
  | setExtra vs =>
    have holds' : Holds ⟨{ w.gc with extraRoots := vs }, w.gc.extraRoots ++ w.held⟩ safe := by
      refine holds.roots (fun u mem => ?_) fun u mem => by simp [mem]
      simp only [List.mem_append] at mem root
      rcases mem with (mem | mem) | mem
      · exact root u (.inl (.inl mem))
      · exact root u (.inl (.inr mem))
      · exact holds.usable (enabled u mem)
    exact ⟨_, rfl, ⟨_, holds'⟩, holds.live holds' fun _ => id⟩
  | promote a =>
    obtain ⟨s', ran, listed', covers'⟩ :=
      promoteToOld_spec listed covers (holds.usable enabled a rfl)
    have holds' : Holds { w with gc := s' } safe := ⟨listed', covers', holds.held⟩
    exact ⟨_, by rw [perform, ran]; rfl, ⟨_, holds'⟩, holds.live holds' fun _ => id⟩
  | minor =>
    obtain ⟨s', ran, listed', ⟨safe', covers'⟩, live⟩ := collectMinor_spec listed covers
    exact ⟨⟨s', []⟩, by rw [perform, ran]; rfl, ⟨safe', listed', covers', nofun⟩, live⟩
  | major =>
    obtain ⟨s', ran, listed', ⟨safe', covers'⟩, live⟩ := collectMajor_spec listed covers
    exact ⟨⟨s', []⟩, by rw [perform, ran]; rfl, ⟨safe', listed', covers', nofun⟩, live⟩

theorem holds_start (promotionAge : Nat) : Holds (World.start promotionAge) fun _ => False := by
  refine ⟨⟨List.nodup_nil, by simp [World.start], by simp [World.start], nofun, rfl, nofun⟩,
    ⟨⟨nofun, nofun⟩, nofun, nofun, nofun⟩, nofun⟩

theorem holds_of_run {promotionAge : Nat} {ls : List Label}
    (run : Run Step (fun _ _ => True) (World.start promotionAge) ls w) :
    ∃ safe, Holds w safe := by
  have keeps : ∀ w l w', (∃ safe, Holds w safe) → True → Step w l w' →
      ∃ safe, Holds w' safe := by
    rintro w l w' ⟨safe, holds⟩ _ step
    obtain ⟨w₁, ran, holds', _⟩ := perform_spec holds step.1
    rw [step.2] at ran
    cases ran
    exact holds'
  exact run.invariant keeps ⟨_, holds_start promotionAge⟩

end Chaaya.Gc
