import Mathlib.Data.List.Forall2
import Quarry.Error
/-!
Inversion of computations that may fail: what the parts of a successful sequence returned.
-/
namespace Quarry

variable {ε α β γ : Type}

theorem pure_eq_ok {a b : α} : (pure a : Except ε α) = .ok b ↔ a = b := by
  simp [pure, Except.pure]

theorem bind_eq_ok {x : Except ε α} {f : α → Except ε β} {b : β} :
    x >>= f = .ok b ↔ ∃ a, x = .ok a ∧ f a = .ok b := by
  cases x with
  | error e => simp [bind, Except.bind]
  | ok a => simp [bind, Except.bind]

theorem bind_eq_error {x : Except ε α} {f : α → Except ε β} {e : ε} :
    x >>= f = .error e ↔ x = .error e ∨ ∃ a, x = .ok a ∧ f a = .error e := by
  cases x with
  | error e => simp [bind, Except.bind]
  | ok a => simp [bind, Except.bind]

theorem bind_congr_ok {x : Except ε α} {f g : α → Except ε β} (h : ∀ a, x = .ok a → f a = g a) :
    x >>= f = x >>= g := by
  cases x with
  | error e => rfl
  | ok a => exact h a rfl

theorem map_eq_ok {x : Except ε α} {f : α → β} {b : β} :
    x.map f = .ok b ↔ ∃ a, x = .ok a ∧ f a = b := by
  cases x <;> simp [Except.map]

theorem fmap_eq_ok {x : Except ε α} {f : α → β} {b : β} :
    f <$> x = .ok b ↔ ∃ a, x = .ok a ∧ f a = b := map_eq_ok

theorem map_eq_error {x : Except ε α} {f : α → β} {e : ε} :
    x.map f = .error e ↔ x = .error e := by
  cases x <;> simp [Except.map]

theorem mapM_eq_ok {f : α → Except ε β} {as : List α} {bs : List β} :
    as.mapM f = .ok bs ↔ List.Forall₂ (fun a b => f a = .ok b) as bs := by
  induction as generalizing bs with
  | nil => cases bs <;> simp [pure, Except.pure]
  | cons a as ih =>
      simp only [List.mapM_cons, bind_eq_ok, ih, pure_eq_ok]
      constructor
      · rintro ⟨b, hb, bs, hbs, rfl⟩
        exact .cons hb hbs
      · rintro (_ | ⟨hb, hbs⟩)
        exact ⟨_, hb, _, hbs, rfl⟩

theorem exists_of_mapM_eq_error {f : α → Except ε β} {as : List α} {e : ε}
    (h : as.mapM f = .error e) : ∃ a ∈ as, f a = .error e := by
  induction as with
  | nil => cases h
  | cons a as ih =>
      rw [List.mapM_cons, bind_eq_error] at h
      rcases h with h | ⟨b, -, h⟩
      · exact ⟨a, List.mem_cons_self, h⟩
      · rcases bind_eq_error.mp h with h | ⟨_, -, h⟩
        · obtain ⟨c, hc, h⟩ := ih h
          exact ⟨c, List.mem_cons_of_mem _ hc, h⟩
        · cases h

theorem isOk_bind_pure {x : Except ε α} (f : α → γ) :
    (x >>= fun a => pure (f a)).isOk = x.isOk := by
  cases x <;> rfl

theorem isOk_bind_bind_pure {x : Except ε α} {y : Except ε β} (f : α → β → γ) :
    (x >>= fun a => y >>= fun b => pure (f a b)).isOk = (x.isOk && y.isOk) := by
  cases x <;> cases y <;> rfl

theorem mapM_isOk {f : α → Except ε β} (as : List α) :
    (as.mapM f).isOk = as.all fun a => (f a).isOk := by
  induction as with
  | nil => rfl
  | cons a as ih => rw [List.mapM_cons, isOk_bind_bind_pure, ih, List.all_cons]

/-! Computations that may fail in a tolerated way -/

/-- Succeeds with what meets `P`, or fails with an error that is tolerated. -/
def Yields (tolerated : ε → Prop) (x : Except ε α) (P : α → Prop) : Prop :=
  match x with
  | .ok a => P a
  | .error e => tolerated e

namespace Yields

variable {tolerated : ε → Prop} {x : Except ε α} {P Q : α → Prop}

theorem imp (h : Yields tolerated x P) (hPQ : ∀ a, P a → Q a) : Yields tolerated x Q := by
  cases x with
  | ok a => exact hPQ a h
  | error e => exact h

/-- More may be tolerated. -/
theorem tolerate {tolerated' : ε → Prop} (h : Yields tolerated x P)
    (ht : ∀ e, tolerated e → tolerated' e) : Yields tolerated' x P := by
  cases x with
  | ok a => exact h
  | error e => exact ht e h

theorem bind {f : α → Except ε β} {R : β → Prop} (h : Yields tolerated x P)
    (hf : ∀ a, P a → Yields tolerated (f a) R) : Yields tolerated (x >>= f) R := by
  cases x with
  | ok a => exact hf a h
  | error e => exact h

theorem map {f : α → β} {R : β → Prop} (h : Yields tolerated x P) (hf : ∀ a, P a → R (f a)) :
    Yields tolerated (f <$> x) R := by
  cases x with
  | ok a => exact hf a h
  | error e => exact h

/-- What is yielded is the result. -/
theorem result (h : Yields tolerated x P) : Yields tolerated x fun a => x = .ok a ∧ P a := by
  cases x with
  | ok a => exact ⟨rfl, h⟩
  | error e => exact h

theorem mapM {f : α → Except ε β} {R : α → γ → Prop} {S : β → γ → Prop} {as : List α}
    {cs : List γ} (h : List.Forall₂ R as cs)
    (hf : ∀ a c, R a c → Yields tolerated (f a) fun b => S b c) :
    Yields tolerated (as.mapM f) fun bs => List.Forall₂ S bs cs := by
  induction h with
  | nil => exact .nil
  | cons hac _ ih =>
      rw [List.mapM_cons]
      refine (hf _ _ hac).bind fun b hb => ?_
      exact ih.bind fun bs hbs => .cons hb hbs

section State

variable {σ : Type} {s : σ}

theorem run_bind {x : StateT σ (Except ε) α} {f : α → StateT σ (Except ε) β} {P : α × σ → Prop}
    {Q : β × σ → Prop} (h : Yields tolerated (x.run s) P)
    (hf : ∀ a t, P (a, t) → Yields tolerated ((f a).run t) Q) :
    Yields tolerated ((x >>= f).run s) Q := by
  rw [StateT.run_bind]
  exact h.bind fun p hp => hf p.1 p.2 hp

/-- What needs no state leaves it as it is. -/
theorem run_lift (h : Yields tolerated x P) :
    Yields tolerated ((liftM x : StateT σ (Except ε) α).run s) fun p => P p.1 ∧ p.2 = s := by
  cases x with
  | error e => exact h
  | ok a => exact ⟨h, rfl⟩

end State

end Yields

/-- Keeps what passes a test that may fail. -/
def keepM (test : α → Except ε Bool) : List α → Except ε (List α)
  | [] => .ok []
  | a :: as => do
    let kept ← test a
    let rest ← keepM test as
    return if kept then a :: rest else rest

theorem mem_of_keepM {test : α → Except ε Bool} {as bs : List α} {b : α}
    (h : keepM test as = .ok bs) (hb : b ∈ bs) : b ∈ as := by
  induction as generalizing bs with
  | nil =>
      cases h
      exact hb
  | cons a as ih =>
      simp only [keepM, bind_eq_ok, pure_eq_ok] at h
      obtain ⟨kept, -, rest, hrest, rfl⟩ := h
      cases kept with
      | false => exact List.mem_cons_of_mem _ (ih hrest hb)
      | true =>
          rcases List.mem_cons.mp hb with rfl | hb
          · exact List.mem_cons_self
          · exact List.mem_cons_of_mem _ (ih hrest hb)

theorem test_of_keepM {test : α → Except ε Bool} {as bs : List α} {b : α}
    (h : keepM test as = .ok bs) (hb : b ∈ bs) : test b = .ok true := by
  induction as generalizing bs with
  | nil =>
      cases h
      cases hb
  | cons a as ih =>
      simp only [keepM, bind_eq_ok, pure_eq_ok] at h
      obtain ⟨kept, hkept, rest, hrest, rfl⟩ := h
      cases kept with
      | false => exact ih hrest hb
      | true =>
          rcases List.mem_cons.mp hb with rfl | hb
          · exact hkept
          · exact ih hrest hb

theorem keepM_congr {test test' : α → Except ε Bool} {as : List α}
    (h : ∀ a ∈ as, test a = test' a) : keepM test as = keepM test' as := by
  induction as with
  | nil => rfl
  | cons a as ih =>
      rw [keepM, keepM, h a List.mem_cons_self, ih fun b hb => h b (List.mem_cons_of_mem _ hb)]

theorem keepM_all {test : α → Except ε Bool} {as : List α} (h : ∀ a ∈ as, test a = .ok true) :
    keepM test as = .ok as := by
  induction as with
  | nil => rfl
  | cons a as ih =>
      rw [keepM, h a List.mem_cons_self, ih fun b hb => h b (List.mem_cons_of_mem _ hb)]
      rfl

/-- Tests that agree on related lists keep related parts of them. -/
theorem keepM_yields {tolerated : ε → Prop} {R : α → β → Prop} {test : α → Except ε Bool}
    {test' : β → Except ε Bool} {as : List α} {bs kept : List β} (h : List.Forall₂ R as bs)
    (hkept : keepM test' bs = .ok kept)
    (htest : ∀ a b, R a b → ∀ c, test' b = .ok c → Yields tolerated (test a) (· = c)) :
    Yields tolerated (keepM test as) fun as' => List.Forall₂ R as' kept := by
  induction h generalizing kept with
  | nil =>
      cases hkept
      exact .nil
  | cons hab _ ih =>
      simp only [keepM, bind_eq_ok, pure_eq_ok] at hkept
      obtain ⟨c, hc, rest, hrest, rfl⟩ := hkept
      refine (htest _ _ hab c hc).bind ?_
      rintro passes rfl
      refine (ih hrest).bind fun as' has' => ?_
      cases passes with
      | false => exact has'
      | true => exact .cons hab has'

end Quarry
