import Mathlib

/-! Programs that keep a state and may fail, and programs that may fail in some ways only. -/

namespace Chaaya.Effects

theorem throw_bind {m : Type → Type} [Monad m] [LawfulMonad m] {β γ : Type} (text : String)
    (f : β → ExceptT String m γ) : ((throw text : ExceptT String m β) >>= f) = throw text := by
  apply ExceptT.ext
  simp

/-- Both steps of a sequence that does not fail. -/
theorem bind_ok {σ β γ : Type} {x : ExceptT String (StateM σ) β}
    {f : β → ExceptT String (StateM σ) γ} {s s' : σ} {c : γ} (ran : (x >>= f) s = (.ok c, s')) :
    ∃ b s₁, x s = (.ok b, s₁) ∧ f b s₁ = (.ok c, s') := by
  have step : ExceptT.bindCont f (x s).1 (x s).2 = (.ok c, s') := ran
  cases eq : x s with
  | mk r s₁ =>
    rw [eq] at step
    cases r with
    | error e => cases step
    | ok b => exact ⟨b, s₁, rfl, step⟩

/-- Both steps of a sequence that returns. -/
theorem bind_returns {σ ε β γ : Type} {x : ExceptT ε (StateT σ Option) β}
    {f : β → ExceptT ε (StateT σ Option) γ} {s s' : σ} {c : γ}
    (ran : (x >>= f) s = some (.ok c, s')) :
    ∃ b s₁, x s = some (.ok b, s₁) ∧ f b s₁ = some (.ok c, s') := by
  change (x s >>= fun p => ExceptT.bindCont f p.1 p.2) = _ at ran
  obtain ⟨⟨_ | b, s₁⟩, eq, more⟩ := Option.bind_eq_some_iff.mp ran
  · cases more
  · exact ⟨b, s₁, eq, more⟩

/-- What `x` returns satisfies `P`, and it fails in the ways `allowed` only. -/
def Yields {ε β : Type} (allowed : ε → Prop) (x : Except ε β) (P : β → Prop) : Prop :=
  match x with
  | .ok b => P b
  | .error e => allowed e

namespace Yields

variable {ε β γ σ τ : Type} {allowed : ε → Prop} {x : Except ε β} {P Q : β → Prop}

theorem ok {b : β} (yields : Yields allowed x P) (done : x = .ok b) : P b := by
  rw [done] at yields
  exact yields

theorem mono (yields : Yields allowed x P) (weaker : ∀ b, P b → Q b) : Yields allowed x Q := by
  cases x with
  | ok b => exact weaker b yields
  | error e => exact yields

theorem bind {f : β → Except ε γ} {R : γ → Prop} (first : Yields allowed x P)
    (next : ∀ b, P b → Yields allowed (f b) R) : Yields allowed (x >>= f) R := by
  cases x with
  | ok b => exact next b first
  | error e => exact first

/-- A loop that simulates another one turn by turn. -/
theorem foldlM {f : σ → β → Except ε σ} {g : τ → β → τ} {R : σ → τ → Prop} (xs : List β) :
    ∀ {s : σ} {t : τ}, R s t →
      (∀ x ∈ xs, ∀ s t, R s t → Yields allowed (f s x) fun s' => R s' (g t x)) →
      Yields allowed (xs.foldlM f s) fun s' => R s' (xs.foldl g t) := by
  induction xs with
  | nil => exact fun start _ => start
  | cons x rest ih =>
    intro s t start turn
    rw [List.foldlM_cons, List.foldl_cons]
    exact (turn x List.mem_cons_self s t start).bind fun s' next =>
      ih next fun y mem => turn y (List.mem_cons_of_mem x mem)

end Yields

/-! ## Programs judged by the state they reach -/

/-- The program ends. From a clean state it reaches a clean state where `K` holds of its result
under the condition `F` only, and what it returns satisfies `Q` in any case. -/
def Exact {σ ε β : Type} (clean : σ → Prop) (F : Prop) (Q K : β → σ → Prop)
    (x : ExceptT ε (StateT σ Option) β) (s : σ) : Prop :=
  ∃ out s', x s = some (out, s') ∧ (∀ b, out = .ok b → Q b s') ∧
    (clean s ∧ F ↔ clean s' ∧ ∀ b, out = .ok b → K b s')

namespace Exact

variable {σ ε β γ : Type} {clean : σ → Prop} {F F' : Prop} {Q K : β → σ → Prop}
  {Q' K' : γ → σ → Prop} {x : ExceptT ε (StateT σ Option) β}
  {f : β → ExceptT ε (StateT σ Option) γ} {s s' : σ} {b : β} {e : ε}

theorem pure (here : Q b s) : Exact clean (K b s) Q K (Pure.pure b : ExceptT ε _ β) s := by
  refine ⟨.ok b, s, rfl, ?_, ?_⟩
  · rintro _ ⟨⟩
    exact here
  · exact and_congr_right fun _ => ⟨fun k => by rintro _ ⟨⟩; exact k, fun k => k b rfl⟩

theorem congr (exact : Exact clean F Q K x s) (same : clean s → (F' ↔ F)) :
    Exact clean F' Q K x s := by
  obtain ⟨out, s', ran, returns, iff⟩ := exact
  exact ⟨out, s', ran, returns, (and_congr_right same).trans iff⟩

theorem mono {P : β → σ → Prop} (exact : Exact clean F Q K x s)
    (weaker : ∀ b s', Q b s' → P b s') : Exact clean F P K x s := by
  obtain ⟨out, s', ran, returns, iff⟩ := exact
  exact ⟨out, s', ran, fun b done => weaker b s' (returns b done), iff⟩

theorem throws (ran : x s = some (.error e, s')) (kept : clean s' ↔ clean s ∧ F) :
    Exact clean F Q K x s := by
  refine ⟨.error e, s', ran, nofun, ?_⟩
  rw [kept]
  exact ⟨fun both => ⟨both, nofun⟩, And.left⟩

theorem bind (first : Exact clean F Q K x s)
    (next : ∀ b s', Q b s' → Exact clean (K b s') Q' K' (f b) s') :
    Exact clean F Q' K' (x >>= f) s := by
  obtain ⟨out, s', ran, returns, iff⟩ := first
  cases out with
  | error e =>
    refine ⟨.error e, s', ?_, nofun, ?_⟩
    · change (x s >>= fun p => ExceptT.bindCont f p.1 p.2) = _
      rw [ran]
      rfl
    · rw [iff]
      exact and_congr_right fun _ => ⟨fun _ => nofun, fun _ => nofun⟩
  | ok b =>
    obtain ⟨out', s'', ran', returns', iff'⟩ := next b s' (returns b rfl)
    refine ⟨out', s'', ?_, returns', ?_⟩
    · change (x s >>= fun p => ExceptT.bindCont f p.1 p.2) = _
      rw [ran]
      exact ran'
    · rw [iff, ← iff']
      exact and_congr_right fun _ => ⟨fun k => k b rfl, fun k => by rintro _ ⟨⟩; exact k⟩

/-- A step whose outcome is known. -/
theorem known (ran : x s = some (.ok b, s')) (here : Q b s') (kept : clean s' ↔ clean s ∧ F)
    (same : F → (F' ↔ K b s')) : Exact clean (F ∧ F') Q K x s := by
  refine ⟨.ok b, s', ran, ?_, ?_⟩
  · rintro _ ⟨⟩
    exact here
  · rw [kept, and_assoc]
    refine and_congr_right fun _ => and_congr_right fun here => (same here).trans ?_
    exact ⟨fun k => by rintro _ ⟨⟩; exact k, fun k => k b rfl⟩

/-- A first step whose outcome is known. -/
theorem step (ran : x s = some (.ok b, s')) (kept : clean s' ↔ clean s)
    (next : Exact clean F Q' K' (f b) s') : Exact clean F Q' K' (x >>= f) s := by
  have first : Exact clean (True ∧ F) (fun c t => c = b ∧ t = s') (fun _ _ => F) x s :=
    known ran ⟨rfl, rfl⟩ (kept.trans (and_true _).to_iff.symm) fun _ => Iff.rfl
  refine (first.congr fun _ => (true_and _).to_iff.symm).bind ?_
  rintro _ _ ⟨rfl, rfl⟩
  exact next

theorem fails (ran : x s = some (.error e, s')) (kept : clean s' ↔ clean s ∧ F) :
    Exact clean F Q' K' (x >>= f) s :=
  (throws (Q := fun _ _ => False) (K := fun _ _ => True) ran kept).bind fun _ _ => False.elim

end Exact

end Chaaya.Effects
