import Mathlib.Data.List.Chain
import Mathlib.Data.List.Forall2
import Mathlib.Data.List.Infix
import Mathlib.Data.List.Nodup
import Mathlib.Logic.Relation
/-!
Lists: related lists, tables, prefixes and monadic maps.
-/
namespace Quarry

/-! Related lists -/

section Related

variable {α β γ : Type} {R : α → β → Prop} {as cs : List α} {bs ds : List β}

theorem exists_of_mem_right {b : β} (h : List.Forall₂ R as bs) (hb : b ∈ bs) : ∃ a ∈ as, R a b := by
  induction h with
  | nil => cases hb
  | @cons a _ _ _ hab _ ih =>
      rcases List.mem_cons.mp hb with rfl | hb
      · exact ⟨a, List.mem_cons_self, hab⟩
      · obtain ⟨a, ha, hab⟩ := ih hb
        exact ⟨a, List.mem_cons_of_mem _ ha, hab⟩

theorem exists_of_mem_left {a : α} (h : List.Forall₂ R as bs) (ha : a ∈ as) : ∃ b ∈ bs, R a b :=
  exists_of_mem_right (R := flip R) h.flip ha

/-- The elements of the right list stay in sight. -/
theorem forall₂_mem_right (h : List.Forall₂ R as bs) :
    List.Forall₂ (fun a b => b ∈ bs ∧ R a b) as bs :=
  ((List.forall₂_and_left _ _).mpr ⟨fun _ hb => hb, h.flip⟩).flip

theorem exists_getElem?_left {i : Nat} {a : α} (h : List.Forall₂ R as bs) (ha : as[i]? = some a) :
    ∃ b, bs[i]? = some b ∧ R a b := by
  induction h generalizing i with
  | nil => cases ha
  | cons hab _ ih =>
      cases i with
      | zero => exact ⟨_, rfl, Option.some.inj ha ▸ hab⟩
      | succ i => exact ih ha

theorem forall₂_of_getElem? (hlength : as.length = bs.length)
    (h : ∀ (i : Nat) (a : α) (b : β), as[i]? = some a → bs[i]? = some b → R a b) :
    List.Forall₂ R as bs := by
  refine List.forall₂_iff_get.mpr ⟨hlength, fun i h₁ h₂ => ?_⟩
  exact h i _ _ (List.getElem?_eq_getElem h₁) (List.getElem?_eq_getElem h₂)

theorem forall₂_append_left (h : List.Forall₂ R (as ++ cs) bs) :
    ∃ xs ys, bs = xs ++ ys ∧ List.Forall₂ R as xs ∧ List.Forall₂ R cs ys := by
  refine ⟨bs.take as.length, bs.drop as.length, (List.take_append_drop _ _).symm, ?_, ?_⟩
  · exact (List.forall₂_take_append bs as cs h.flip).flip
  · exact (List.forall₂_drop_append bs as cs h.flip).flip

theorem forall₂_append_iff (h : as.length = bs.length) :
    List.Forall₂ R (as ++ cs) (bs ++ ds) ↔ List.Forall₂ R as bs ∧ List.Forall₂ R cs ds := by
  constructor
  · intro happend
    obtain ⟨xs, ys, heq, hxs, hys⟩ := forall₂_append_left happend
    obtain ⟨rfl, rfl⟩ := List.append_inj heq (h.symm.trans hxs.length_eq)
    exact ⟨hxs, hys⟩
  · rintro ⟨hleft, hright⟩
    exact List.rel_append hleft hright

theorem forall₂_comp {S : β → γ → Prop} {es : List γ} (h : List.Forall₂ R as bs)
    (h' : List.Forall₂ S bs es) : List.Forall₂ (Relation.Comp R S) as es := by
  induction h generalizing es with
  | nil =>
      cases h'
      exact .nil
  | cons hab _ ih =>
      cases h' with
      | cons hbc h' => exact .cons ⟨_, hab, hbc⟩ (ih h')

/-- Lists that are related to one list are related to each other. -/
theorem forall₂_of_left {S : α → γ → Prop} {T : β → γ → Prop} {es : List γ}
    (hRS : ∀ a b c, R a b → S a c → T b c) (h : List.Forall₂ R as bs) (h' : List.Forall₂ S as es) :
    List.Forall₂ T bs es := by
  refine (forall₂_comp (R := flip R) h.flip h').imp ?_
  rintro b c ⟨a, hab, hac⟩
  exact hRS a b c hab hac

theorem all_congr {f : α → Bool} {g : β → Bool} (h : List.Forall₂ (fun a b => g b = f a) as bs) :
    bs.all g = as.all f := by
  induction h with
  | nil => rfl
  | cons hab _ ih => rw [List.all_cons, List.all_cons, hab, ih]

end Related

/-! Tables -/

section Tables

variable {κ α β : Type} {R : α → β → Prop} {as : List (κ × α)} {bs : List (κ × β)} {k : κ} {x : α}

theorem mem_of_lookup [BEq κ] [LawfulBEq κ] (h : as.lookup k = some x) : (k, x) ∈ as := by
  obtain ⟨l₁, l₂, rfl, -⟩ := List.lookup_eq_some_iff.mp h
  simp

theorem lookup_of_mem [BEq κ] [LawfulBEq κ] (has : (as.map (·.1)).Nodup) (h : (k, x) ∈ as) :
    as.lookup k = some x := by
  obtain ⟨l₁, l₂, rfl⟩ := List.append_of_mem h
  refine List.lookup_eq_some_iff.mpr ⟨l₁, l₂, rfl, ?_⟩
  intro entry hentry
  rw [List.map_append, List.map_cons, List.nodup_middle, List.nodup_cons] at has
  have hne : k ≠ entry.1 := by
    rintro rfl
    exact has.1 (List.mem_append_left _ (List.mem_map.mpr ⟨entry, hentry, rfl⟩))
  simpa using hne

theorem lookup_filter_ne [DecidableEq κ] {j : κ} (h : k ≠ j) :
    (as.filter (·.1 ≠ j)).lookup k = as.lookup k := by
  induction as with
  | nil => rfl
  | cons entry as ih =>
      obtain ⟨i, x⟩ := entry
      by_cases hi : i = j
      · have hk : (k == i) = false := by simpa [hi] using h
        rw [List.filter_cons_of_neg (by simpa using hi), ih, List.lookup_cons, hk]
      · rw [List.filter_cons_of_pos (by simpa using hi), List.lookup_cons, List.lookup_cons, ih]

/-- Tables of the same keys have related entries. -/
theorem lookup_rel [BEq κ] (h : List.Forall₂ (fun a b => a.1 = b.1 ∧ R a.2 b.2) as bs) :
    Option.Rel R (as.lookup k) (bs.lookup k) := by
  induction h with
  | nil => exact .none
  | @cons a b as bs hab _ ih =>
      obtain ⟨i, x⟩ := a
      obtain ⟨j, y⟩ := b
      obtain ⟨rfl, hxy⟩ := hab
      rw [List.lookup_cons, List.lookup_cons]
      cases k == i with
      | true => exact .some hxy
      | false => exact ih

theorem exists_of_lookup [BEq κ] (h : List.Forall₂ (fun a b => a.1 = b.1 ∧ R a.2 b.2) as bs)
    (hx : as.lookup k = some x) : ∃ y, bs.lookup k = some y ∧ R x y := by
  have hrel := lookup_rel (k := k) h
  rw [hx] at hrel
  cases hbs : bs.lookup k with
  | none => rw [hbs] at hrel; cases hrel
  | some y =>
      rw [hbs] at hrel
      cases hrel with
      | some hxy => exact ⟨y, rfl, hxy⟩

end Tables

/-! Prefixes -/

section Prefixes

variable {α : Type} {a : α} {as bs l : List α} {i : Nat}

theorem getElem?_of_cons_prefix (h : (a :: as) <+: l.drop i) :
    l[i]? = some a ∧ as <+: l.drop (i + 1) := by
  obtain ⟨rest, hrest⟩ := h
  constructor
  · rw [← List.head?_drop, ← hrest]
    rfl
  · exact ⟨rest, by rw [← List.drop_drop, ← hrest]; rfl⟩

theorem prefix_of_append (h : (as ++ bs) <+: l.drop i) :
    as <+: l.drop i ∧ bs <+: l.drop (i + as.length) := by
  obtain ⟨rest, hrest⟩ := h
  constructor
  · exact ⟨bs ++ rest, by rw [← hrest, List.append_assoc]⟩
  · exact ⟨rest, by rw [← List.drop_drop, ← hrest, List.append_assoc, List.drop_left]⟩

/-- An element does not stand twice in a row. -/
theorem not_infix_iff : ¬[a, a] <:+: l ↔ l.IsChain fun x y => ¬(x = a ∧ y = a) := by
  rw [List.isChain_iff_forall_rel_of_append_cons_cons]
  constructor
  · rintro h x y l₁ l₂ rfl ⟨rfl, rfl⟩
    exact h ⟨l₁, l₂, by simp⟩
  · rintro h ⟨l₁, l₂, rfl⟩
    exact h (List.append_assoc l₁ [a, a] l₂) ⟨rfl, rfl⟩

end Prefixes

/-! Monadic maps -/

section Monadic

variable {m : Type → Type} [Monad m] [LawfulMonad m] {α β : Type}

theorem mapM_congr {f f' : α → m β} {as : List α} (h : ∀ a ∈ as, f a = f' a) :
    as.mapM f = as.mapM f' := by
  induction as with
  | nil => rfl
  | cons a as ih =>
      rw [List.mapM_cons, List.mapM_cons, h a List.mem_cons_self,
        ih fun b hb => h b (List.mem_cons_of_mem _ hb)]

theorem map_mapM (f : α → m β) (g : β → β) (as : List α) :
    List.map g <$> as.mapM f = as.mapM fun a => g <$> f a := by
  induction as with
  | nil => simp
  | cons a as ih => simp [← ih]

theorem map_lift (g : α → β) (x : m α) :
    g <$> (OptionT.lift x : OptionT m α) = OptionT.lift (g <$> x) := by
  apply OptionT.ext
  simp

theorem mapM_lift (g : α → m β) (as : List α) :
    as.mapM (fun a => OptionT.lift (g a)) = OptionT.lift (as.mapM g) := by
  induction as with
  | nil => simp
  | cons a as ih => simp [ih, map_lift]

end Monadic

end Quarry
