import Quarry.Proofs.Labels
import Quarry.Proofs.Rows
/-!
Meaning without the rows around: an expression absorbs rows in sight if it has by itself the meaning
that another has where they are seen. A node absorbs what its parts absorb.
-/
namespace Quarry

theorem Frame.lookup_eq_none {env : Frame} {l : String} (h : l ∉ env.map Prod.fst) :
    env.lookup l = none := by
  rw [List.lookup_eq_none_iff]
  intro x hx
  exact bne_iff_ne.mpr fun heq => h (heq ▸ List.mem_map_of_mem hx)

namespace Database

variable {db : Database} {find : Finder} {env inner : Frame}

theorem label_of_pairs {left right : List Frame} {ls : List String}
    (hleft : ∀ a ∈ left, ∀ x ∈ a, x.1 ∈ ls) (hright : ∀ b ∈ right, ∀ x ∈ b, x.1 ∈ ls) :
    ∀ frame ∈ left.flatMap fun a => right.map fun b => a ++ b, ∀ x ∈ frame, x.1 ∈ ls := by
  intro frame hframe x hx
  obtain ⟨a, ha, hpair⟩ := List.mem_flatMap.mp hframe
  obtain ⟨b, hb, rfl⟩ := List.mem_map.mp hpair
  rcases List.mem_append.mp hx with hx | hx
  · exact hleft a ha x hx
  · exact hright b hb x hx

/-- The rows of a source stand under labels of the source. -/
theorem label_of_sourceRows {e : Expr} {frames : List Frame}
    (h : db.sourceRows find env e = .ok frames) :
    ∀ frame ∈ frames, ∀ x ∈ frame, x.1 ∈ e.labels := by
  induction e using Expr.children_induction generalizing frames with
  | step e ih =>
      have hchild : ∀ c ∈ e.children, ∀ frames, db.sourceRows find env c = .ok frames →
          ∀ frame ∈ frames, ∀ x ∈ frame, x.1 ∈ e.labels :=
        fun c hc frames h frame hframe x hx => Expr.labels_child hc (ih c hc h frame hframe x hx)
      cases e with
      | table t =>
          simp only [sourceRows, bind_eq_ok, pure_eq_ok] at h
          obtain ⟨table, -, rfl⟩ := h
          intro frame hframe x hx
          obtain ⟨row, -, rfl⟩ := List.mem_map.mp hframe
          obtain rfl := List.mem_singleton.mp hx
          exact Expr.label_mem_labels rfl
      | select s =>
          simp only [sourceRows, bind_eq_ok, pure_eq_ok] at h
          obtain ⟨rows, -, rfl⟩ := h
          intro frame hframe x hx
          obtain ⟨row, -, rfl⟩ := List.mem_map.mp hframe
          obtain rfl := List.mem_singleton.mp hx
          exact Expr.label_mem_labels rfl
      | join kind l r condition =>
          cases kind with
          | inner =>
              simp only [sourceRows, bind_eq_ok] at h
              obtain ⟨left, hleft, right, hright, h⟩ := h
              intro frame hframe
              exact label_of_pairs (hchild l (by simp [Expr.children]) left hleft)
                (hchild r (by simp [Expr.children]) right hright) frame (mem_of_keepM h hframe)
          | _ => cases h
      | _ => cases h

/-- An expression has by itself the meaning that another has where the rows of `env` are in sight
too. -/
structure Absorbs (db : Database) (find : Finder) (env : Frame) (e e' : Expr) : Prop where
  label : e'.label? = e.label?
  scalar : ∀ inner, List.Disjoint (inner.map Prod.fst) (env.map Prod.fst) →
    db.scalar find inner e' = db.scalar find (inner ++ env) e
  sourceRows : ∀ inner, List.Disjoint (inner.map Prod.fst) (env.map Prod.fst) →
    db.sourceRows find inner e' = db.sourceRows find (inner ++ env) e

section Absorbs

variable (hinner : List.Disjoint (inner.map Prod.fst) (env.map Prod.fst))
include hinner

theorem fields_absorb {ms ms' : List (String × Expr)}
    (h : List.Forall₂ (fun a b => a.1 = b.1 ∧ Absorbs db find env a.2 b.2) ms ms') :
    db.fields find inner ms' = db.fields find (inner ++ env) ms := by
  induction h with
  | nil => rfl
  | @cons m m' _ _ hm _ ih =>
      obtain ⟨name, e⟩ := m
      obtain ⟨name', e'⟩ := m'
      obtain ⟨rfl, he⟩ := hm
      simp only [fields, he.scalar inner hinner, ih]

theorem scalars_absorb {es es' : List Expr} (h : List.Forall₂ (Absorbs db find env) es es') :
    db.scalars find inner es' = db.scalars find (inner ++ env) es := by
  induction h with
  | nil => rfl
  | cons he _ ih => simp only [scalars, he.scalar inner hinner, ih]

theorem holds_absorb {o o' : Option Expr} (h : Option.Rel (Absorbs db find env) o o') :
    db.holds find inner o' = db.holds find (inner ++ env) o := by
  cases h with
  | none => rfl
  | some he => simp only [holds, he.scalar inner hinner]

theorem meets_absorb {f f' : FunctionCall Expr} (h : f.Alike (Absorbs db find env) f') :
    db.meets find inner f' = db.meets find (inner ++ env) f := by
  obtain ⟨method, function, receiver, args, type⟩ := f
  obtain ⟨method', function', receiver', args', type'⟩ := f'
  simp only [meets, scalars_absorb hinner h.args]

theorem functionValue_absorb {f f' : FunctionCall Expr} (h : f.Alike (Absorbs db find env) f') :
    db.functionValue find inner f' = db.functionValue find (inner ++ env) f := by
  obtain ⟨method, function, receiver, args, type⟩ := f
  obtain ⟨method', function', receiver', args', type'⟩ := f'
  obtain ⟨rfl, rfl, hreceiver, hargs, rfl⟩ := h
  cases function with
  | existence | absence => rfl
  | substr =>
      cases hreceiver with
      | none => rfl
      | some he =>
          simp only [functionValue, he.scalar inner hinner, scalars_absorb hinner hargs]

/-- More rows may come into sight under labels that the absorbed rows do not have. -/
theorem disjoint_append {frame : Frame} {ls : List String} (hls : List.Disjoint ls (env.map Prod.fst))
    (hframe : ∀ x ∈ frame, x.1 ∈ ls) :
    List.Disjoint ((frame ++ inner).map Prod.fst) (env.map Prod.fst) := by
  rw [List.map_append, List.disjoint_append_left]
  refine ⟨fun l hl => ?_, hinner⟩
  obtain ⟨x, hx, rfl⟩ := List.mem_map.mp hl
  exact hls (hframe x hx)

/-- A condition on the rows of a source keeps the same ones. -/
theorem keepM_holds_absorb {o o' : Option Expr} {frames : List Frame} {ls : List String}
    (h : Option.Rel (Absorbs db find env) o o') (hls : List.Disjoint ls (env.map Prod.fst))
    (hframes : ∀ frame ∈ frames, ∀ x ∈ frame, x.1 ∈ ls) :
    keepM (fun frame => db.holds find (frame ++ inner) o') frames =
      keepM (fun frame => db.holds find (frame ++ (inner ++ env)) o) frames := by
  refine keepM_congr fun frame hframe => ?_
  rw [← List.append_assoc]
  exact holds_absorb (disjoint_append hinner hls (hframes frame hframe)) h

theorem selectRows_absorb {s s' : Select Expr} (h : s.Alike (Absorbs db find env) s')
    (hs : List.Disjoint s.source.labels (env.map Prod.fst)) :
    db.selectRows find inner s' = db.selectRows find (inner ++ env) s := by
  obtain ⟨label, columns, source, filter⟩ := s
  obtain ⟨label', columns', source', filter'⟩ := s'
  simp only [selectRows, h.source.sourceRows inner hinner]
  refine bind_congr_ok fun frames hframes => ?_
  have hlabels := label_of_sourceRows hframes
  rw [keepM_holds_absorb hinner h.filter hs hlabels]
  refine bind_congr_ok fun kept hkept => mapM_congr fun frame hframe => ?_
  rw [← List.append_assoc]
  exact fields_absorb (disjoint_append hinner hs (hlabels frame (mem_of_keepM hkept hframe))) h.columns

theorem values_absorb {s s' : Select Expr} {e e' : Expr} (shape : Shape)
    (hs : s.Alike (Absorbs db find env) s') (he : Absorbs db find env e e')
    (hlabels : List.Disjoint s.source.labels (env.map Prod.fst))
    (hlabel : s.label ∉ env.map Prod.fst) :
    db.values find inner ⟨s', e', shape⟩ = db.values find (inner ++ env) ⟨s, e, shape⟩ := by
  simp only [values, selectRows_absorb hinner hs hlabels, ← hs.label]
  refine bind_congr_ok fun rows _ => mapM_congr fun row _ => he.scalar ((s.label, row) :: inner) ?_
  exact List.disjoint_cons_left.mpr ⟨hlabel, hinner⟩

end Absorbs

/-- A node absorbs what its children absorb, unless it is itself a column of the rows absorbed. -/
theorem absorbs_of_alike {e e' : Expr} (h : Expr.Alike (Absorbs db find env) e e')
    (hlabels : List.Disjoint e.labels (env.map Prod.fst)) (hbare : "" ∉ env.map Prod.fst)
    (hcolumn : ∀ c, e = .column c → c.label ∉ env.map Prod.fst) : Absorbs db find env e e' := by
  have hbelow : ∀ c ∈ e.children, List.Disjoint c.labels (env.map Prod.fst) :=
    fun c hc => List.disjoint_of_subset_left (Expr.labels_child hc) hlabels
  constructor
  · cases h with
    | select h => exact congrArg some h.label.symm
    | projection shape hs _ => exact congrArg some hs.label.symm
    | _ => rfl
  · intro inner hinner
    cases h with
    | leaf hleaf =>
        cases e with
        | column c =>
            have hnone := Frame.lookup_eq_none (hcolumn c rfl)
            simp only [scalar, List.lookup_append, hnone, Option.or_none]
        | _ => first | rfl | cases hleaf
    | member name h => simp only [scalar, h.scalar inner hinner]
    | unary op h => simp only [scalar, h.scalar inner hinner]
    | binary op hl hr => simp only [scalar, hl.scalar inner hinner, hr.scalar inner hinner]
    | construct t h => simp only [scalar, fields_absorb hinner h]
    | function h => simp only [scalar, functionValue_absorb hinner h]
    | subquery sql h =>
        simp only [scalar, ← h.function]
        congr 1
        refine keepM_congr fun row _ => meets_absorb ?_ h
        exact List.disjoint_cons_left.mpr ⟨hbare, hinner⟩
    | @projection s _ _ _ shape hs he =>
        have hsource := hbelow s.source
          (by simp [Expr.children, Projection.children, Select.children])
        have hlabel := hlabels (Expr.label_mem_labels rfl)
        simp only [scalar, values_absorb hinner shape hs he hsource hlabel]
    | _ => rfl
  · intro inner hinner
    cases h with
    | leaf hleaf => cases e <;> first | rfl | cases hleaf
    | @select s _ h =>
        have hsource := hbelow s.source (by simp [Expr.children, Select.children])
        simp only [sourceRows, selectRows_absorb hinner h hsource, h.label]
    | @join kind l r l' r' condition condition' hl hr hc =>
        cases kind with
        | inner =>
            simp only [sourceRows, hl.sourceRows inner hinner, hr.sourceRows inner hinner]
            refine bind_congr_ok fun left hleft => bind_congr_ok fun right hright => ?_
            have hchild : ∀ c ∈ (Expr.join .inner l r condition).children, ∀ frames,
                db.sourceRows find (inner ++ env) c = .ok frames →
                  ∀ frame ∈ frames, ∀ x ∈ frame, x.1 ∈ (Expr.join .inner l r condition).labels :=
              fun c hc frames h frame hframe x hx =>
                Expr.labels_child hc (label_of_sourceRows h frame hframe x hx)
            exact keepM_holds_absorb hinner hc hlabels
              (label_of_pairs (hchild l (by simp [Expr.children]) left hleft)
                (hchild r (by simp [Expr.children]) right hright))
        | _ => rfl
    | _ => rfl

end Database

end Quarry
