import Mathlib

/-! Programs that read a text piece by piece. A program asks for what lies ahead and more of
the text is fetched until it is there; it may also look at no more than what has been
fetched. -/

namespace Chaaya.Refill

variable {β : Type}

/-- A text with a position, `bytes` of it fetched and the rest coming in pieces. -/
structure Source (β : Type) where
  bytes : List β
  pos : Nat
  coming : List (List β)
deriving DecidableEq, Repr

namespace Source

/-- The same text, fetched at once. -/
def whole (s : Source β) : Source β := ⟨s.bytes ++ s.coming.flatten, s.pos, []⟩

/-- Fetches pieces until there is something at `want`, or no piece is left. An empty piece
stands for the end. -/
def fetch (want : Nat) (bytes : List β) : List (List β) → List β × List (List β)
  | [] => (bytes, [])
  | c :: cs =>
    if want < bytes.length || c.isEmpty then (bytes, c :: cs) else fetch want (bytes ++ c) cs

def reach (s : Source β) (want : Nat) : Source β :=
  { s with bytes := (fetch want s.bytes s.coming).1, coming := (fetch want s.bytes s.coming).2 }

end Source

/-- `P τ` are the procedures with a result in `τ`, `σ` is the state that a program keeps. -/
inductive Prog (σ β : Type) (P : Type → Type) (α : Type) : Type 1 where
  | ret (a : α)
  | get (k : σ → Prog σ β P α)
  | set (x : σ) (k : Prog σ β P α)
  /-- What is at `ahead` after the position. -/
  | peek (ahead : Nat) (k : Option β → Prog σ β P α)
  /-- One step forward, if there is one. -/
  | advance (k : Option β → Prog σ β P α)
  /-- Back to an earlier position. -/
  | back (pos : Nat) (k : Prog σ β P α)
  | here (k : Nat → Prog σ β P α)
  /-- What has been passed since `start`. -/
  | text (start : Nat) (k : List β → Prog σ β P α)
  /-- A function of what has been fetched. -/
  | look (f : List β → Nat → Bool) (k : Bool → Prog σ β P α)
  /-- Forward to where a function of what has been fetched says. -/
  | scan (f : List β → Nat → Nat) (k : Nat → Prog σ β P α)
  | call {τ : Type} (p : P τ) (k : τ → Prog σ β P α)

variable {σ : Type} {P : Type → Type} {α γ : Type}

namespace Prog

def bind : Prog σ β P α → (α → Prog σ β P γ) → Prog σ β P γ
  | ret a, f => f a
  | get k, f => get fun x => (k x).bind f
  | set x k, f => set x (k.bind f)
  | peek ahead k, f => peek ahead fun b => (k b).bind f
  | advance k, f => advance fun b => (k b).bind f
  | back pos k, f => back pos (k.bind f)
  | here k, f => here fun n => (k n).bind f
  | text start k, f => text start fun bs => (k bs).bind f
  | look g k, f => look g fun b => (k b).bind f
  | scan g k, f => scan g fun n => (k n).bind f
  | call p k, f => call p fun r => (k r).bind f

instance : Monad (Prog σ β P) where
  pure := ret
  bind := bind

/-- How procedures run. -/
abbrev Runs (σ β : Type) (P : Type → Type) :=
  ∀ τ : Type, P τ → σ → Source β → Option (τ × σ × Source β)

def eval (run : Runs σ β P) : Prog σ β P α → σ → Source β → Option (α × σ × Source β)
  | ret a, x, s => some (a, x, s)
  | get k, x, s => eval run (k x) x s
  | set x k, _, s => eval run k x s
  | peek ahead k, x, s =>
    let s := s.reach (s.pos + ahead)
    eval run (k s.bytes[s.pos + ahead]?) x s
  | advance k, x, s =>
    let s := s.reach s.pos
    match s.bytes[s.pos]? with
    | none => eval run (k none) x s
    | some b => eval run (k (some b)) x { s with pos := s.pos + 1 }
  | back pos k, x, s => eval run k x { s with pos := min pos s.pos }
  | here k, x, s => eval run (k s.pos) x s
  | text start k, x, s => eval run (k ((s.bytes.take s.pos).drop start)) x s
  | look f k, x, s => eval run (k (f s.bytes s.pos)) x s
  | scan f k, x, s =>
    let n := min (f s.bytes s.pos) s.bytes.length
    eval run (k n) x { s with pos := n }
  | call p k, x, s => (run _ p x s).bind fun (r, x, s) => eval run (k r) x s

/-- Where the program looks at what has been fetched, it would see the same in the whole
text. -/
def Clear (run : Runs σ β P) (clear : ∀ τ, P τ → σ → Source β → Bool) :
    Prog σ β P α → σ → Source β → Bool
  | ret _, _, _ => true
  | get k, x, s => Clear run clear (k x) x s
  | set x k, _, s => Clear run clear k x s
  | peek ahead k, x, s =>
    let s := s.reach (s.pos + ahead)
    Clear run clear (k s.bytes[s.pos + ahead]?) x s
  | advance k, x, s =>
    let s := s.reach s.pos
    match s.bytes[s.pos]? with
    | none => Clear run clear (k none) x s
    | some b => Clear run clear (k (some b)) x { s with pos := s.pos + 1 }
  | back pos k, x, s => Clear run clear k x { s with pos := min pos s.pos }
  | here k, x, s => Clear run clear (k s.pos) x s
  | text start k, x, s => Clear run clear (k ((s.bytes.take s.pos).drop start)) x s
  | look f k, x, s =>
    f s.whole.bytes s.pos == f s.bytes s.pos && Clear run clear (k (f s.bytes s.pos)) x s
  | scan f k, x, s =>
    let n := min (f s.bytes s.pos) s.bytes.length
    f s.whole.bytes s.pos == n && Clear run clear (k n) x { s with pos := n }
  | call p k, x, s =>
    clear _ p x s &&
      match run _ p x s with
      | none => true
      | some (r, x, s) => Clear run clear (k r) x s

end Prog

/-- A text whose position is within what has been fetched, and whose pieces bring something. -/
structure Source.Sound (s : Source β) : Prop where
  inside : s.pos ≤ s.bytes.length
  full : ∀ c ∈ s.coming, c ≠ []

namespace Source

theorem fetch_spec (want : Nat) (coming : List (List β)) : ∀ bytes, (∀ c ∈ coming, c ≠ []) →
    (fetch want bytes coming).1 ++ (fetch want bytes coming).2.flatten =
        bytes ++ coming.flatten ∧
      (∀ c ∈ (fetch want bytes coming).2, c ≠ []) ∧
      bytes.length ≤ (fetch want bytes coming).1.length ∧
      (fetch want bytes coming).1[want]? = (bytes ++ coming.flatten)[want]? := by
  induction coming with
  | nil => exact fun bytes _ => ⟨rfl, nofun, Nat.le_refl _, by simp [fetch]⟩
  | cons c cs ih =>
    intro bytes full
    have here := full c List.mem_cons_self
    have empty : c.isEmpty = false := by
      cases c with
      | nil => exact absurd rfl here
      | cons _ _ => rfl
    unfold fetch
    by_cases there : want < bytes.length
    · rw [if_pos (by simp [there])]
      exact ⟨rfl, full, Nat.le_refl _, (List.getElem?_append_left there).symm⟩
    · rw [if_neg (by simp [there, empty])]
      obtain ⟨same, rest, grown, found⟩ :=
        ih (bytes ++ c) fun d mem => full d (List.mem_cons_of_mem c mem)
      rw [List.append_assoc, ← List.flatten_cons] at same found
      refine ⟨same, rest, ?_, found⟩
      rw [List.length_append] at grown
      omega

theorem Sound.reach {s : Source β} (sound : s.Sound) (want : Nat) :
    (s.reach want).Sound ∧ (s.reach want).whole = s.whole ∧
      (s.reach want).bytes[want]? = s.whole.bytes[want]? := by
  obtain ⟨same, full, grown, found⟩ := fetch_spec want s.coming s.bytes sound.full
  refine ⟨⟨Nat.le_trans sound.inside grown, full⟩, ?_, found⟩
  rw [whole, whole, ← same]
  rfl

theorem whole_reach (s : Source β) (want : Nat) : s.whole.reach want = s.whole := rfl

end Source

/-- The outcome of a run, with the rest of the text fetched at once. -/
def atOnce (r : α × σ × Source β) : α × σ × Source β := (r.1, r.2.1, r.2.2.whole)

/-- Where the procedures run as on the whole text, so does a program. -/
theorem Prog.eval_whole {run : Runs σ β P} {clear : ∀ τ, P τ → σ → Source β → Bool}
    (same : ∀ τ (p : P τ) x s, s.Sound → clear τ p x s = true →
      (run τ p x s).map atOnce = run τ p x s.whole ∧
        ∀ r y t, run τ p x s = some (r, y, t) → t.Sound)
    (prog : Prog σ β P α) : ∀ (x : σ) (s : Source β), s.Sound → prog.Clear run clear x s = true →
      (prog.eval run x s).map atOnce = prog.eval run x s.whole ∧
        ∀ r y t, prog.eval run x s = some (r, y, t) → t.Sound := by
  induction prog with
  | ret a =>
    intro x s sound _
    refine ⟨rfl, fun r y t done => ?_⟩
    obtain ⟨rfl, rest⟩ := Prod.mk.inj (Option.some.inj done)
    obtain ⟨rfl, rfl⟩ := Prod.mk.inj rest
    exact sound
  | get k ih => exact fun x s sound clear => ih x x s sound clear
  | set y k ih => exact fun x s sound clear => ih y s sound clear
  | peek ahead k ih =>
    intro x s sound clear
    obtain ⟨sound', whole, found⟩ := sound.reach (s.pos + ahead)
    have seen : s.whole.bytes[s.whole.pos + ahead]? =
        (s.reach (s.pos + ahead)).bytes[(s.reach (s.pos + ahead)).pos + ahead]? := found.symm
    have rest := ih _ x (s.reach (s.pos + ahead)) sound' clear
    rw [whole] at rest
    simp only [eval, Source.whole_reach, seen]
    exact rest
  | advance k ih =>
    intro x s sound clear
    obtain ⟨sound', whole, found⟩ := sound.reach s.pos
    simp only [Clear] at clear
    simp only [eval, Source.whole_reach]
    have seen : s.whole.bytes[s.whole.pos]? = (s.reach s.pos).bytes[(s.reach s.pos).pos]? :=
      found.symm
    rw [seen]
    cases there : (s.reach s.pos).bytes[(s.reach s.pos).pos]? with
    | none =>
      rw [there] at clear
      have rest := ih none x (s.reach s.pos) sound' clear
      rwa [whole] at rest
    | some b =>
      rw [there] at clear
      have moved : Source.Sound { s.reach s.pos with pos := (s.reach s.pos).pos + 1 } :=
        ⟨(List.getElem?_eq_some_iff.1 there).1, sound'.full⟩
      have rest := ih (some b) x _ moved clear
      have whole' : Source.whole { s.reach s.pos with pos := (s.reach s.pos).pos + 1 } =
          { s.whole with pos := s.whole.pos + 1 } := by
        rw [← whole]
        rfl
      rwa [whole'] at rest
  | back pos k ih =>
    intro x s sound clear
    exact ih x _ ⟨Nat.le_trans (Nat.min_le_right _ _) sound.inside, sound.full⟩ clear
  | here k ih => exact fun x s sound clear => ih s.pos x s sound clear
  | text start k ih =>
    intro x s sound clear
    have rest := ih _ x s sound clear
    have passed : s.whole.bytes.take s.whole.pos = s.bytes.take s.pos :=
      List.take_append_of_le_length sound.inside
    simp only [eval, passed]
    exact rest
  | look f k ih =>
    intro x s sound clear
    simp only [Clear, Bool.and_eq_true, beq_iff_eq] at clear
    obtain ⟨seen, clear⟩ := clear
    have rest := ih _ x s sound clear
    rw [← seen] at rest
    simp only [eval]
    rwa [← seen]
  | scan f k ih =>
    intro x s sound clear
    simp only [Clear, Bool.and_eq_true, beq_iff_eq] at clear
    obtain ⟨seen, clear⟩ := clear
    have within : Source.Sound { s with pos := min (f s.bytes s.pos) s.bytes.length } :=
      ⟨Nat.min_le_right _ _, sound.full⟩
    have rest := ih _ x _ within clear
    have stops : min (f s.whole.bytes s.whole.pos) s.whole.bytes.length =
        min (f s.bytes s.pos) s.bytes.length := by
      rw [show s.whole.pos = s.pos from rfl, seen, Nat.min_eq_left]
      rw [Source.whole, List.length_append]
      exact Nat.le_trans (Nat.min_le_right _ _) (Nat.le_add_right _ _)
    simp only [eval, stops]
    exact rest
  | call p k ih =>
    intro x s sound clear
    simp only [Clear, Bool.and_eq_true] at clear
    obtain ⟨clear, later⟩ := clear
    obtain ⟨agree, sound'⟩ := same _ p x s sound clear
    simp only [eval]
    rw [← agree]
    cases done : run _ p x s with
    | none => exact ⟨rfl, nofun⟩
    | some out =>
      obtain ⟨r, y, t⟩ := out
      rw [done] at later
      exact ih r y t (sound' r y t done) later

variable (body : ∀ τ, P τ → Prog σ β P τ)

/-- Procedures at most `fuel` deep. -/
def run : Nat → Prog.Runs σ β P
  | 0 => fun _ _ _ _ => none
  | fuel + 1 => fun τ p x s => (body τ p).eval (run fuel) x s

def Clear : Nat → ∀ τ, P τ → σ → Source β → Bool
  | 0 => fun _ _ _ _ => true
  | fuel + 1 => fun τ p x s => (body τ p).Clear (run body fuel) (Clear fuel) x s

/-- A run that is clear gives what it gives on the whole text, and ends where that does. -/
theorem run_whole (fuel : Nat) : ∀ τ (p : P τ) x s, s.Sound → Clear body fuel τ p x s = true →
    (run body fuel τ p x s).map atOnce = run body fuel τ p x s.whole ∧
      ∀ r y t, run body fuel τ p x s = some (r, y, t) → t.Sound := by
  induction fuel with
  | zero => exact fun _ _ _ _ _ _ => ⟨rfl, nofun⟩
  | succ fuel ih => exact fun τ p x s sound clear => (body τ p).eval_whole ih x s sound clear

end Chaaya.Refill
