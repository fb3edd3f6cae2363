import Quarry.Proofs.Actions
import Quarry.Reader.Enumeration
/-!
What one item of a reader is, said once for every executor: the next row, the end, or a failure. All
items are read one after the other.
-/
namespace Quarry

namespace Executor

variable {σ : Type} {X : Executor σ} {nested : Nested σ} {r r' : Reader} {c : Cursor}

/-- The reader moved to a row. -/
def onRow (r : Reader) (c : Cursor) (row : Row) (rest : List Row) : Reader :=
  { r with cursor := some { c with current := some row, rest } }

/-- What the next item of a reader is, where `c` is its cursor: the read fails, no row is left, the
value of the row cannot be built, or it is built. In all cases but the last the reader ends and
releases its cursor. -/
inductive Advances (X : Executor σ) (nested : Nested σ) (r : Reader) (c : Cursor) (s : σ) :
    Option (Except Error Value) → Reader → σ → Prop
  | unread {e s₁} (hread : X.beforeRead.run.run s = (.error e, s₁)) :
      Advances X nested r c s (some (.error e)) { r with cursor := none } (X.release s₁)
  | ended {s₁} (hread : X.beforeRead.run.run s = (.ok (), s₁)) (hrest : c.rest = []) :
      Advances X nested r c s none { r with cursor := none } (X.release s₁)
  | unbuilt {row rest e s₁ s₂} (hread : X.beforeRead.run.run s = (.ok (), s₁))
      (hrest : c.rest = row :: rest)
      (hrun : (r.materializer.run (rowAccess nested (onRow r c row rest))).run.run s₁ =
        (.error e, s₂)) :
      Advances X nested r c s (some (.error e)) { r with cursor := none } (X.release s₂)
  | built {row rest v s₁ s₂} (hread : X.beforeRead.run.run s = (.ok (), s₁))
      (hrest : c.rest = row :: rest)
      (hrun : (r.materializer.run (rowAccess nested (onRow r c row rest))).run.run s₁ =
        (.ok v, s₂)) :
      Advances X nested r c s (some (.ok v)) (onRow r c row rest) s₂

theorem nextWith_finished (hr : r.isFinished) (s : σ) :
    (X.nextWith nested r).run s = ((none, r), s) := by
  cases hc : r.cursor with
  | none =>
      unfold nextWith
      rw [hc]
      rfl
  | some c => simp [Reader.isFinished, hc] at hr

theorem nextWith_advances {item : Option (Except Error Value)} {s s' : σ}
    (hr : r.cursor = some c) (h : (X.nextWith nested r).run s = ((item, r'), s')) :
    Advances X nested r c s item r' s' := by
  simp only [nextWith, hr] at h
  rw [StateT.run_bind] at h
  cases hrow : (X.readRow nested r c).run.run s with
  | mk x s₂ =>
      rw [hrow] at h
      rw [readRow] at hrow
      rcases run_bind_cases hrow with ⟨e, hread, rfl⟩ | ⟨⟨⟩, s₁, hread, hrow⟩
      · cases h
        exact .unread hread
      · cases hrest : c.rest with
        | nil =>
            have hadvance : c.advance = { c with current := none } := by rw [Cursor.advance, hrest]
            rw [hadvance] at hrow
            cases hrow
            cases h
            exact .ended hread hrest
        | cons row rest =>
            have hadvance : c.advance = { c with current := some row, rest } := by
              rw [Cursor.advance, hrest]
            rw [hadvance] at hrow
            rcases run_bind_cases hrow with ⟨e, hrun, rfl⟩ | ⟨v, s₃, hrun, hresult⟩
            · cases h
              exact .unbuilt hread hrest hrun
            · cases hresult
              cases h
              exact .built hread hrest hrun

/-- A reader ends where it has no value of a row to return. -/
theorem nextWith_isFinished {item : Option (Except Error Value)} {s s' : σ}
    (h : (X.nextWith nested r).run s = ((item, r'), s')) :
    r'.isFinished ↔ ∀ v, item ≠ some (.ok v) := by
  cases hc : r.cursor with
  | none =>
      have hfinished : r.isFinished := by simp [Reader.isFinished, hc]
      rw [nextWith_finished hfinished] at h
      cases h
      simp [hfinished]
  | some c =>
      cases nextWith_advances hc h with
      | unread | ended | unbuilt => simp [Reader.isFinished]
      | built => simp [Reader.isFinished, onRow]

theorem nextWith_materializer {item : Option (Except Error Value)} {s s' : σ}
    (h : (X.nextWith nested r).run s = ((item, r'), s')) : r'.materializer = r.materializer := by
  cases hr : r.cursor with
  | none =>
      rw [nextWith_finished (by simp [Reader.isFinished, hr])] at h
      cases h
      rfl
  | some c => cases nextWith_advances hr h <;> rfl

/-- One turn of reading all items: the reader has ended, reading stops at an item that fails or cannot
be converted, or it goes on behind the item. -/
theorem collectWith_cases {α : Type} {convert : Value → Except Error α} {count : Nat}
    {x : Except Error (List α)} {s s' : σ}
    (h : (X.collectWith nested convert (count + 1) r).run s = (x, s')) :
    (∃ r₁, (X.nextWith nested r).run s = ((none, r₁), s') ∧ x = .ok []) ∨
    (∃ item r₁ s₁ e, (X.nextWith nested r).run s = ((some item, r₁), s₁) ∧ x = .error e ∧
      s' = ((X.drop r₁).run s₁).2) ∨
    ∃ v a r₁ s₁ y, (X.nextWith nested r).run s = ((some (.ok v), r₁), s₁) ∧ convert v = .ok a ∧
      (X.collectWith nested convert count r₁).run s₁ = (y, s') ∧ x = y.map (a :: ·) := by
  rw [collectWith, StateT.run_bind] at h
  cases hnext : (X.nextWith nested r).run s with
  | mk result s₁ =>
      obtain ⟨item, r₁⟩ := result
      rw [hnext] at h
      cases item with
      | none =>
          cases h
          exact .inl ⟨r₁, rfl, rfl⟩
      | some item =>
          cases hitem : item.bind convert with
          | error e =>
              simp only [bind, hitem] at h
              cases h
              exact .inr (.inl ⟨item, r₁, s₁, e, rfl, rfl, rfl⟩)
          | ok a =>
              obtain ⟨v, rfl, hconvert⟩ := bind_eq_ok.mp hitem
              simp only [bind, hitem] at h
              replace h : (do return (← X.collectWith nested convert count r₁).map (a :: ·)).run s₁ =
                (x, s') := h
              cases hrest : (X.collectWith nested convert count r₁).run s₁ with
              | mk y s₂ =>
                  rw [StateT.run_bind, hrest] at h
                  cases h
                  exact .inr (.inr ⟨v, a, r₁, s₁, y, rfl, hconvert, hrest, rfl⟩)

end Executor

end Quarry
