import Chaaya.Gc.Collect

/-! Ephemerons in a major collection. The marks are what the roots reach, no more and no
less, and the ephemerons that are broken are the ones whose keys are not among them. -/

namespace Chaaya.Gc

open Chaaya.Marking

variable {s : Collector} {safe : Nat → Prop} {t t' : Tracing}

/-- Nothing is marked and nothing waits that the roots do not reach. -/
structure Tight (s : Collector) (t : Tracing) : Prop where
  marked : ∀ a ∈ t.marked, Live s a
  pending : ∀ e ∈ t.pending, Live s e

theorem mem_registered {heap : Nat → Option Obj} {before after : List Nat} {a : Nat}
    (mem : a ∈ registered heap before after) : a ∈ after := by
  rw [registered, List.mem_filter, List.mem_reverse] at mem
  exact List.mem_of_mem_take mem.1

theorem Tight.markValues (tight : Tight s t) {work : List Nat} (start : ∀ a ∈ work, Live s a)
    (ran : markValues s t work = some t') : Tight s t' := by
  rw [Gc.markValues] at ran
  obtain ⟨out, marks, rfl⟩ := Option.map_eq_some_iff.mp ran
  have step : ∀ x next, Live s x → successors s.heap x = some next → ∀ y ∈ next, Live s y := by
    intro x next live found y mem
    obtain ⟨o, there, rfl⟩ := Option.map_eq_some_iff.mp found
    exact .field live there mem
  have live : ∀ a ∈ out, Live s a := by
    intro a mem
    rcases (markLoop_marks _ _ _ marks).least (Live s) start step a mem with old | new
    · exact tight.marked a old
    · exact new
  refine ⟨live, fun e mem => ?_⟩
  rcases List.mem_append.mp mem with mem | mem
  · exact tight.pending e mem
  · exact live e (mem_registered mem)

theorem mem_of_swapRemove {l : List Nat} {i a : Nat} (mem : a ∈ swapRemove l i) : a ∈ l := by
  have some_ : l ≠ [] := by
    rintro rfl
    cases mem
  rcases List.mem_or_eq_of_mem_set ((List.dropLast_sublist _).subset mem) with mem | rfl
  · exact mem
  · have last : l.length - 1 < l.length := Nat.sub_one_lt_of_lt (List.length_pos_iff.mpr some_)
    rw [List.getD_eq_getElem?_getD, List.getElem?_eq_getElem last]
    exact List.getElem_mem last

theorem weakReachable_live {key : Value} (tight : Tight s t)
    (reached : weakReachable s t key = some true) {k : Nat} (eq : key = .pointer k) : Live s k := by
  rw [eq, weakReachable] at reached
  obtain ⟨o, there, mem⟩ := Option.map_eq_some_iff.mp reached
  exact tight.marked k (of_decide_eq_true mem)

theorem Tight.weakPass (fuel i : Nat) (progress : Bool) {p : Bool} (tight : Tight s t)
    (ran : weakPass s fuel i progress t = some (p, t')) : Tight s t' := by
  induction fuel generalizing i progress t with
  | zero => cases ran
  | succ fuel ih =>
    rw [Gc.weakPass] at ran
    cases at_ : t.pending[i]? with
    | none =>
      rw [at_] at ran
      cases ran
      exact tight
    | some e =>
      have here := tight.pending e (List.mem_of_getElem? at_)
      rw [at_] at ran
      dsimp only at ran
      split at ran
      · rename_i g age key value broken there
        split at ran
        · cases ran
        · exact ih _ _ tight ran
        · rename_i reached
          have held : ∀ k, key = .pointer k → Live s k := fun k =>
            weakReachable_live tight reached
          split at ran
          · cases ran
          · rename_i t₁ marks
            have start : ∀ b ∈ pointers [key, value], Live s b := by
              intro b mem
              rcases List.mem_cons.mp (mem_pointers.mp mem) with eq | mem
              · exact held b eq.symm
              · exact .ephemeron here there held (List.mem_singleton.mp mem).symm
            have tight₁ := tight.markValues start marks
            have rest : Tight s { t₁ with pending := swapRemove t₁.pending i } :=
              ⟨tight₁.marked, fun x mem => tight₁.pending x (mem_of_swapRemove mem)⟩
            exact ih i true rest ran
      · cases ran

theorem Tight.weakLoop (fuel : Nat) (tight : Tight s t) (ran : weakLoop s fuel t = some t') :
    Tight s t' := by
  induction fuel generalizing t with
  | zero => cases ran
  | succ fuel ih =>
    rw [Gc.weakLoop] at ran
    split at ran
    · cases ran
    · rename_i t₁ pass
      exact ih (tight.weakPass _ _ _ pass) ran
    · rename_i t₁ pass
      cases ran
      exact tight.weakPass _ _ _ pass

/-- Whether a live ephemeron still waits at the end tells whether its key is reached. -/
theorem waits_iff {scanned : List Nat} (traced : Traced s safe scanned t) (stuck : Stuck s t 0)
    (exact_ : ∀ a, a ∈ t.marked ↔ Live s a) {e age : Nat} {g : Generation} {key value : Value}
    {broken : Bool} (live : Live s e)
    (there : s.heap e = some ⟨g, age, .ephemeron key value broken⟩) :
    e ∈ t.pending ↔ ∃ k, key = .pointer k ∧ ¬ Live s k := by
  constructor
  · intro waits
    obtain ⟨j, at_⟩ := List.getElem?_of_mem waits
    have unreached := stuck j e _ _ _ _ _ (Nat.zero_le _) at_ there
    cases key with
    | pointer k =>
      rw [weakReachable] at unreached
      obtain ⟨_, _, no⟩ := Option.map_eq_some_iff.mp unreached
      exact ⟨k, rfl, fun reached => of_decide_eq_false no ((exact_ k).mpr reached)⟩
    | _ => cases unreached
  · rintro ⟨k, rfl, gone⟩
    rcases traced.settled e _ _ _ _ _ (.inl ((exact_ e).mpr live)) there with waits | done
    · exact waits
    · exact absurd ((exact_ k).mp (done k (mem_pointers.mpr List.mem_cons_self))) gone

/-- What a major collection makes of the heap: what the roots reach stays as it is but for
ephemerons without their keys, and the rest is freed. -/
structure Weakly (s : Collector) (heap : Nat → Option Obj) : Prop where
  freed : ∀ a, ¬ Live s a → heap a = none
  kept : ∀ a o, Live s a → s.heap a = some o → isEphemeron (some o) = false → heap a = some o
  held : ∀ e g age key value broken, Live s e →
    s.heap e = some ⟨g, age, .ephemeron key value broken⟩ →
    (∀ k, key = .pointer k → Live s k) → heap e = some ⟨g, age, .ephemeron key value broken⟩
  broken : ∀ e g age k value broken, Live s e →
    s.heap e = some ⟨g, age, .ephemeron (.pointer k) value broken⟩ → ¬ Live s k →
    heap e = some ⟨g, age, .ephemeron (.bool false) (.bool false) true⟩

/-- The roots hold an ephemeron and its key; its value holds another one, whose key nothing
else holds. -/
def chained : Collector where
  heap a := ([.ephemeron (.pointer 1) (.pointer 2) false, .plain [] [], .plain [.pointer 3] [],
    .ephemeron (.pointer 4) (.pointer 1) false, .plain [] []] : List Content)[a]?.map
      fun content => ⟨.young, 0, content⟩
  next := 5
  young := List.range 5
  old := []
  marked := []
  remembered := []
  vmRoots := [.pointer 0, .pointer 1]
  roots := []
  extraRoots := []
  symbols := []
  promotionAge := 3

theorem chained_allocated (a : Nat) : (∃ o, chained.heap a = some o) ↔ a < 5 := by
  constructor
  · rintro ⟨o, there⟩
    obtain ⟨content, found, _⟩ := Option.map_eq_some_iff.mp there
    exact (List.getElem?_eq_some_iff.mp found).1
  · intro low
    exact ⟨_, Option.map_eq_some_iff.mpr ⟨_, List.getElem?_eq_getElem low, rfl⟩⟩

theorem chained_listed : Listed chained := by
  refine ⟨List.append_nil (List.range 5) ▸ List.nodup_range, fun a => ?_, fun a o there => ?_,
    fun a mem => ?_, rfl, nofun⟩
  · exact (chained_allocated a).trans (by simp [chained])
  · have low := (chained_allocated a).mp ⟨o, there⟩
    obtain ⟨content, _, rfl⟩ := Option.map_eq_some_iff.mp there
    simpa [chained] using low
  · simpa [chained] using mem

theorem chained_closed : Closed chained (· < 5) := by
  refine ⟨fun a low => ?_, fun a low => by simpa [chained] using low⟩
  obtain ⟨o, there⟩ := (chained_allocated a).mpr low
  refine ⟨o, there, ?_⟩
  have all : ∀ a < 5, ∀ o ∈ chained.heap a, ∀ b ∈ pointers o.content.references, b < 5 := by
    decide
  exact all a low o there

theorem chained_live {a : Nat} (live : Live chained a) : a < 4 := by
  induction live with
  | root mem =>
    have all : ∀ a ∈ chained.rootAddresses, a < 4 := by decide
    exact all _ mem
  | @field a b o _ there mem ih =>
    have all : ∀ a < 4, ∀ o ∈ chained.heap a, ∀ b ∈ pointers o.content.followed, b < 4 := by
      decide
    exact all a ih o there b mem
  | @ephemeron e b age g key value broken _ there _ eq ih held =>
    have low : ∀ e < 4, ∀ o ∈ chained.heap e, ∀ b ∈ pointers o.content.references,
        b < 4 ∨ o.content = .ephemeron (.pointer 4) (.pointer 1) false := by decide
    rcases low e ih _ there b (mem_pointers.mpr (by simp [Content.references, eq])) with low | last
    · exact low
    · cases last
      exact absurd (held 4 rfl) (by decide)

end Chaaya.Gc
