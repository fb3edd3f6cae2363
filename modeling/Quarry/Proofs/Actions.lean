import Quarry.Materializer
import Quarry.Proofs.Outcome
/-!
Programs with a state, which may fail. One relation between two programs, with a rule for each way to
compose them, is what every judgement on runs comes from: that two programs run alike, that one keeps
up with another over a state of its own, and what a single program ensures.
-/
namespace Quarry

variable {ε σ τ α β : Type}

/-! Two programs side by side -/

/-- From states related by `P` the two programs return the same, and they come to states that `Q`
relates for this result. -/
def Relates (P : σ → τ → Prop) (a : StateM σ α) (b : StateM τ α) (Q : α → σ → τ → Prop) : Prop :=
  ∀ s t, P s t → (a.run s).1 = (b.run t).1 ∧ Q (a.run s).1 (a.run s).2 (b.run t).2

namespace Relates

variable {P : σ → τ → Prop}

theorem pure {v : α} {Q : α → σ → τ → Prop} (h : ∀ s t, P s t → Q v s t) :
    Relates P (Pure.pure v) (Pure.pure v) Q := by
  intro s t hst
  exact ⟨rfl, h s t hst⟩

theorem bind {a : StateM σ α} {b : StateM τ α} {f : α → StateM σ β} {g : α → StateM τ β}
    {M : α → σ → τ → Prop} {Q : β → σ → τ → Prop} (h : Relates P a b M)
    (hf : ∀ v, Relates (M v) (f v) (g v) Q) : Relates P (a >>= f) (b >>= g) Q := by
  intro s t hst
  have hab := h s t hst
  rw [StateT.run_bind, StateT.run_bind]
  cases ha : a.run s with
  | mk v s₁ =>
      cases hb : b.run t with
      | mk w t₁ =>
          rw [ha, hb] at hab
          obtain ⟨rfl, hstates⟩ := hab
          exact hf v s₁ t₁ hstates

theorem modifying {f : σ → σ} {g : τ → τ} {Q : Unit → σ → τ → Prop}
    (h : ∀ s t, P s t → Q () (f s) (g t)) : Relates P (modify f) (modify g) Q := by
  intro s t hst
  exact ⟨rfl, h s t hst⟩

/-! Actions -/

variable {a : ExceptT ε (StateM σ) α} {b : ExceptT ε (StateM τ) α} {Q : Except ε α → σ → τ → Prop}

theorem lift {x : Except ε α} (h : ∀ s t, P s t → Q x s t) :
    Relates P (liftM x : ExceptT ε (StateM σ) α).run (liftM x : ExceptT ε (StateM τ) α).run Q := by
  cases x with
  | ok v => exact .pure h
  | error e => exact .pure h

/-- A failure of the first part is one of the whole. -/
theorem andThen {f : α → ExceptT ε (StateM σ) β} {g : α → ExceptT ε (StateM τ) β}
    {R : Except ε β → σ → τ → Prop} (h : Relates P a.run b.run Q)
    (hf : ∀ v, Relates (Q (.ok v)) (f v).run (g v).run R)
    (herror : ∀ e s t, Q (.error e) s t → R (.error e) s t) :
    Relates P (a >>= f).run (b >>= g).run R := by
  rw [ExceptT.run_bind, ExceptT.run_bind]
  refine h.bind fun x => ?_
  cases x with
  | ok v => exact hf v
  | error e => exact .pure (herror e)

theorem tryCatch {f : ε → ExceptT ε (StateM σ) α} {g : ε → ExceptT ε (StateM τ) α}
    {R : Except ε α → σ → τ → Prop} (h : Relates P a.run b.run Q)
    (hf : ∀ e, Relates (Q (.error e)) (f e).run (g e).run R)
    (hok : ∀ v s t, Q (.ok v) s t → R (.ok v) s t) :
    Relates P (ExceptT.tryCatch a f).run (ExceptT.tryCatch b g).run R := by
  refine h.bind fun x => ?_
  cases x with
  | ok v => exact .pure (hok v)
  | error e => exact hf e

end Relates

/-! One program -/

/-- The states are one and the same, and it meets `p`. -/
def Same (p : σ → Prop) (s t : σ) : Prop := s = t ∧ p s

/-- From a state that meets `pre` the program comes to a result and a state that meet `post`. -/
abbrev Establishes (pre : σ → Prop) (a : StateM σ α) (post : α → σ → Prop) : Prop :=
  Relates (Same pre) a a fun v => Same (post v)

theorem establishes_iff {pre : σ → Prop} {a : StateM σ α} {post : α → σ → Prop} :
    Establishes pre a post ↔ ∀ s v s', pre s → a.run s = (v, s') → post v s' := by
  constructor
  · intro h s v s' hs hrun
    obtain ⟨-, -, hpost⟩ := h s s ⟨rfl, hs⟩
    rwa [hrun] at hpost
  · rintro h s _ ⟨rfl, hs⟩
    exact ⟨rfl, rfl, h s _ _ hs rfl⟩

/-- What is established from one state holds of the run from it. -/
theorem establishes_from {a : StateM σ α} {post : α → σ → Prop} {s : σ} :
    Establishes (· = s) a post ↔ post (a.run s).1 (a.run s).2 := by
  rw [establishes_iff]
  constructor
  · intro h
    exact h s _ _ rfl rfl
  · rintro h _ v s' rfl hrun
    rw [hrun] at h
    exact h

section Runs

variable {a : ExceptT ε (StateM σ) α} {f : α → ExceptT ε (StateM σ) β} {s s' : σ}

theorem run_bind_cases {x : Except ε β} (h : (a >>= f).run.run s = (x, s')) :
    (∃ e, a.run.run s = (.error e, s') ∧ x = .error e) ∨
      ∃ v s₁, a.run.run s = (.ok v, s₁) ∧ (f v).run.run s₁ = (x, s') := by
  -- The first part comes to what it comes to.
  have hfirst : Establishes (· = s) a.run fun y t => a.run.run s = (y, t) :=
    establishes_from.mpr rfl
  have hwhole : Establishes (· = s) (a >>= f).run fun x t =>
      (∃ e, a.run.run s = (.error e, t) ∧ x = .error e) ∨
        ∃ v s₁, a.run.run s = (.ok v, s₁) ∧ (f v).run.run s₁ = (x, t) := by
    refine hfirst.andThen (fun v => ?_) ?_
    · rintro t _ ⟨rfl, hrun⟩
      exact ⟨rfl, rfl, .inr ⟨v, t, hrun, rfl⟩⟩
    · rintro e t _ ⟨rfl, hrun⟩
      exact ⟨rfl, .inl ⟨e, hrun, rfl⟩⟩
  rw [establishes_from, h] at hwhole
  exact hwhole

/-- The parts of a run that succeeds. -/
theorem run_bind_ok {b : β} (h : (a >>= f).run.run s = (.ok b, s')) :
    ∃ v s₁, a.run.run s = (.ok v, s₁) ∧ (f v).run.run s₁ = (.ok b, s') := by
  rcases run_bind_cases h with ⟨e, -, hb⟩ | hparts
  · cases hb
  · exact hparts

theorem run_lift_eq {x y : Except ε α}
    (h : (liftM y : ExceptT ε (StateM σ) α).run.run s = (x, s')) : y = x ∧ s = s' := by
  have hlift : Establishes (· = s) (liftM y : ExceptT ε (StateM σ) α).run fun x t =>
      y = x ∧ s = t := Relates.lift fun t _ ht => ⟨ht.1, rfl, ht.2.symm⟩
  rw [establishes_from, h] at hlift
  exact hlift

end Runs

end Quarry
