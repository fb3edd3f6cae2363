import Quarry.Proofs.Starting
/-!
The cache of materializers stays bounded. Which keys a bound query can bring into it is known from the
query alone: its own key and those of the projections nested in its projector. Neither the rows nor the
number of runs and reads matters, because the key of a nested projection is the same for every row.
-/
namespace Quarry

namespace Expr

/-- The projections of an expression and, through their projectors, of each other. -/
def projections : Expr → List (Projection Expr) :=
  fold fun e parts =>
    match e with
    | .projection p => p :: parts.getLast?.getD []
    | _ => parts.flatten

theorem projections_projection (p : Projection Expr) :
    (Expr.projection p).projections = p :: p.projector.projections := by
  rw [projections, fold_eq]
  simp [children, Projection.children]

theorem projections_eq {e : Expr} (h : Binding.isProjection e = false) :
    e.projections = e.children.flatMap projections := by
  rw [projections, fold_eq]
  cases e with
  | projection p => cases h
  | _ => rfl

/-- What is reached are the outermost projections and what is reached from their projectors. -/
theorem length_projections (e : Expr) :
    e.projections.length = (e.outermost.map fun q => q.projector.projections.length + 1).sum := by
  induction e using children_induction with
  | step e ih =>
      cases he : Binding.isProjection e with
      | true =>
          cases e with
          | projection p => simp [projections_projection, outermost_projection]
          | _ => cases he
      | false =>
          rw [projections_eq he, outermost_eq he, List.length_flatMap, List.map_flatMap,
            List.flatMap_def, List.sum_flatten, List.map_map]
          exact congrArg List.sum (List.map_congr_left ih)

theorem outermost_depth {e : Expr} {q : Projection Expr} (h : q ∈ e.outermost) :
    (Expr.projection q).projectionDepth ≤ e.projectionDepth := by
  induction e using children_induction with
  | step e ih =>
      cases he : Binding.isProjection e with
      | true =>
          cases e with
          | projection p =>
              rw [outermost_projection, List.mem_singleton] at h
              rw [h]
          | _ => cases he
      | false =>
          rw [outermost_eq he, List.mem_flatMap] at h
          obtain ⟨c, hc, hq⟩ := h
          exact (ih c hc hq).trans (projectionDepth_child hc)

end Expr

theorem correlated_projections (label : String) (e : Expr) :
    (e.rewrite (Materializer.correlateNode label)).projections.length = e.projections.length := by
  induction e using Expr.children_induction with
  | step e ih =>
      rcases Materializer.correlateNode_cases label e with ⟨row, hrow, he⟩ | ⟨hnone, -, -⟩
      · rw [Expr.rewrite_some hrow]
        rcases he with ⟨c, rfl, -⟩ | ⟨outer, rfl, -⟩ <;> rfl
      · have halike := Expr.rewrite_none hnone
        generalize e.rewrite (Materializer.correlateNode label) = e' at halike
        cases he : Binding.isProjection e with
        | true =>
            cases halike with
            | projection shape hs hp =>
                simp only [Expr.projections_projection, List.length_cons, hp.2, ih _ hp.1]
            | leaf => rfl
            | _ => cases he
        | false =>
            have he' : Binding.isProjection e' = false := by cases halike <;> exact he
            have hlengths : List.Forall₂ (fun c c' => c'.projections.length = c.projections.length)
                e.children e'.children :=
              halike.children.imp fun c c' hc => by rw [hc.2, ih c hc.1]
            have hsame : e'.children.map (List.length ∘ Expr.projections) =
                e.children.map (List.length ∘ Expr.projections) := by
              rw [← List.forall₂_eq_eq_eq, List.forall₂_map_left_iff, List.forall₂_map_right_iff]
              exact hlengths.flip
            rw [Expr.projections_eq he, Expr.projections_eq he', List.length_flatMap,
              List.length_flatMap]
            exact congrArg List.sum hsame

namespace Projection

variable {p q : Projection Expr}

theorem nested_depth (h : q ∈ p.nested) :
    (Expr.projection q).projectionDepth < (Expr.projection p).projectionDepth := by
  obtain ⟨q₀, hq₀, rfl⟩ := List.mem_map.mp h
  have hsame := correlated_projectionDepth p.source.label (.projection q₀)
  rw [Expr.rewrite_projection rfl] at hsame
  calc (Expr.projection (Materializer.correlate p.source.label q₀)).projectionDepth
      = (Expr.projection q₀).projectionDepth := hsame
    _ ≤ p.projector.projectionDepth := Expr.outermost_depth hq₀
    _ < (Expr.projection p).projectionDepth := Expr.projectionDepth_projector p

/-- The keys that running a projection and reading its rows can bring into the cache. -/
def cacheKeys (p : Projection Expr) : List (String × Expr) :=
  MaterializerCache.keyOf p :: p.nested.attach.flatMap fun q => cacheKeys q.1
termination_by (Expr.projection p).projectionDepth
decreasing_by exact nested_depth q.2

theorem cacheKeys_eq (p : Projection Expr) :
    p.cacheKeys = MaterializerCache.keyOf p :: p.nested.flatMap cacheKeys := by
  rw [cacheKeys, List.flatMap_subtype fun _ _ => rfl, List.unattach_attach]

theorem keyOf_mem_cacheKeys (p : Projection Expr) : MaterializerCache.keyOf p ∈ p.cacheKeys := by
  rw [cacheKeys_eq]
  exact List.mem_cons_self

theorem cacheKeys_nested (h : q ∈ p.nested) : q.cacheKeys ⊆ p.cacheKeys := by
  intro key hkey
  rw [cacheKeys_eq p]
  exact List.mem_cons_of_mem _ (List.mem_flatMap_of_mem h hkey)

/-- Of the select only the label matters, which is the same for every row. -/
theorem cacheKeys_of_label {source : Select Expr} (h : source.label = p.source.label) :
    cacheKeys { p with source } = p.cacheKeys := by
  rw [cacheKeys_eq, cacheKeys_eq p]
  simp only [MaterializerCache.keyOf, nested, h]

theorem correlate_projector (label : String) (q : Projection Expr) :
    (Materializer.correlate label q).projector =
      q.projector.rewrite (Materializer.correlateNode label) :=
  congrArg Projection.projector (Expr.projection_rewrite q)

/-- One key for the projection itself, and one for each that is reached from its projector. -/
theorem length_cacheKeys (p : Projection Expr) :
    p.cacheKeys.length = 1 + p.projector.projections.length := by
  induction p using cacheKeys.induct with
  | case1 p ih =>
      have hnested : ∀ q ∈ p.projector.outermost,
          (Materializer.correlate p.source.label q).cacheKeys.length =
            q.projector.projections.length + 1 := by
        intro q hq
        have hmem : Materializer.correlate p.source.label q ∈ p.nested := List.mem_map_of_mem hq
        rw [ih ⟨_, hmem⟩, correlate_projector, correlated_projections, Nat.add_comm]
      rw [cacheKeys_eq, List.length_cons, List.length_flatMap, nested, List.map_map,
        Expr.length_projections, Nat.add_comm]
      exact congrArg (1 + List.sum ·) (List.map_congr_left hnested)

end Projection

namespace MaterializerCache

def keys (c : MaterializerCache) : List (String × Expr) := c.entries.map Prod.fst

/-- The other cache has entries added for keys among `K`, each of them new and once. -/
def Grows (K : List (String × Expr)) (c c' : MaterializerCache) : Prop :=
  ∃ added, c'.entries = c.entries ++ added ∧ (added.map Prod.fst).Nodup ∧
    ∀ x ∈ added, x.1 ∈ K ∧ x.1 ∉ c.keys

namespace Grows

variable {K : List (String × Expr)} {c c' c'' : MaterializerCache}

theorem refl (K : List (String × Expr)) (c : MaterializerCache) : Grows K c c :=
  ⟨[], (List.append_nil _).symm, List.nodup_nil, List.forall_mem_nil _⟩

theorem trans (h : Grows K c c') (h' : Grows K c' c'') : Grows K c c'' := by
  obtain ⟨added, hadded, hnodup, hnew⟩ := h
  obtain ⟨added', hadded', hnodup', hnew'⟩ := h'
  have hkeys : c'.keys = c.keys ++ added.map Prod.fst := by
    rw [keys, hadded, List.map_append]
    rfl
  refine ⟨added ++ added', ?_, ?_, ?_⟩
  · rw [hadded', hadded, List.append_assoc]
  · rw [List.map_append, List.nodup_append']
    refine ⟨hnodup, hnodup', ?_⟩
    intro key hkey hkey'
    obtain ⟨x, hx, rfl⟩ := List.mem_map.mp hkey'
    apply (hnew' x hx).2
    rw [hkeys]
    exact List.mem_append_right _ hkey
  · intro x hx
    rcases List.mem_append.mp hx with hx | hx
    · exact hnew x hx
    · refine ⟨(hnew' x hx).1, ?_⟩
      intro hkey
      apply (hnew' x hx).2
      rw [hkeys]
      exact List.mem_append_left _ hkey

/-- Among `K` there are at least as many keys as were added. -/
theorem size_le (h : Grows K c c') : c'.size ≤ c.size + K.length := by
  obtain ⟨added, hadded, hnodup, hnew⟩ := h
  have hsubset : added.map Prod.fst ⊆ K := by
    intro key hkey
    obtain ⟨x, hx, rfl⟩ := List.mem_map.mp hkey
    exact (hnew x hx).1
  have hlength := (hnodup.subperm hsubset).length_le
  rw [List.length_map] at hlength
  rw [size, size, hadded, List.length_append]
  omega

theorem mono {K' : List (String × Expr)} (h : Grows K c c') (hK : K ⊆ K') : Grows K' c c' := by
  obtain ⟨added, hadded, hnodup, hnew⟩ := h
  exact ⟨added, hadded, hnodup, fun x hx => ⟨hK (hnew x hx).1, (hnew x hx).2⟩⟩

end Grows

end MaterializerCache

namespace Provider

variable {σ : Type} {P : Provider σ} {p : Projection Expr} {c c' : MaterializerCache}

/-- Finding or building a materializer adds at most the key of its projection. -/
theorem compile_grows {m : Materializer} (h : P.compile c p = .ok (m, c')) :
    c.Grows [MaterializerCache.keyOf p] c' := by
  unfold compile at h
  split at h
  · obtain ⟨x, hx, heq⟩ := map_eq_ok.mp h
    cases heq
    unfold MaterializerCache.getOrBuild at hx
    split at hx
    next =>
      cases hx
      exact .refl _ c
    next hlookup =>
      simp only [MaterializerCache.build, bind_eq_ok, pure_eq_ok] at hx
      obtain ⟨_, ⟨m, -, rfl⟩, rfl⟩ := hx
      refine ⟨[(MaterializerCache.keyOf p, ⟨c.builds, m⟩)], rfl, by simp, ?_⟩
      intro x hx
      rw [List.mem_singleton.mp hx]
      refine ⟨List.mem_singleton_self _, ?_⟩
      intro hkey
      obtain ⟨entry, hentry, hsame⟩ := List.mem_map.mp hkey
      have hne := List.lookup_eq_none_iff.mp hlookup entry hentry
      simp [hsame] at hne
  · obtain ⟨m', -, heq⟩ := map_eq_ok.mp h
    cases heq
    exact .refl _ c

/-- The cache is sound and has grown only by keys among `K`. -/
structure Bounded (K : List (String × Expr)) (s₀ s : ProviderState σ) : Prop where
  sound : IsSound s
  grows : s₀.cache.Grows K s.cache

theorem Starts.bounded {K : List (String × Expr)} {s₀ s s' : ProviderState σ} {outer : List Row}
    {x : Except Error Reader} (h : Starts P p outer s x s') (hs : Bounded K s₀ s)
    (hp : p.cacheKeys ⊆ K) :
    Bounded K s₀ s' ∧ ∀ r, x = .ok r → r.held = 1 ∧
      ∀ q ∈ r.materializer.subqueries, q.cacheKeys ⊆ K := by
  have hkey : [MaterializerCache.keyOf p] ⊆ K :=
    List.cons_subset.mpr ⟨hp p.keyOf_mem_cacheKeys, List.nil_subset _⟩
  have hcompile {m cache} (hm : P.compile s.cache p = .ok (m, cache)) (rows : σ) :
      Bounded K s₀ ⟨rows, cache⟩ :=
    ⟨(IsSound.compile hs.sound hm).2, hs.grows.trans ((compile_grows hm).mono hkey)⟩
  cases h with
  | unplanned =>
      refine ⟨hs, ?_⟩
      rintro r ⟨⟩
  | unanswered _ hm _ =>
      refine ⟨hcompile hm _, ?_⟩
      rintro r ⟨⟩
  | answered _ hm _ =>
      refine ⟨hcompile hm _, ?_⟩
      rintro r ⟨⟩
      refine ⟨rfl, ?_⟩
      intro q hq
      rw [Materializer.subqueries_of_build (IsSound.compile hs.sound hm).1] at hq
      exact List.Subset.trans (Projection.cacheKeys_nested hq) hp

/-- Whatever is read, the cache grows only by keys of the projections that may be started. -/
theorem executor_bounded (P : Provider σ) (K : List (String × Expr)) (s₀ : ProviderState σ) :
    P.executor.Keeps (fun q => q.cacheKeys ⊆ K) fun _ s => Bounded K s₀ s where
  start q hq source outer hlabel _ s x s' hs h := by
    rw [← Projection.cacheKeys_of_label hlabel] at hq
    obtain ⟨hs', hr⟩ := (executeProjection_starts h).bounded hs hq
    cases x with
    | error e => exact hs'
    | ok r => exact ⟨hs', hr r rfl⟩
  beforeRead _ s x s' hs h := by
    cases h
    exact ⟨hs.sound, hs.grows⟩
  release _ s hs := ⟨hs.sound, hs.grows⟩

/-- The states that are reached by running a bound query and reading its rows, any number of times and
in any order, with the readers so far at every place they have been at. Between two steps the row
source may change in any way. -/
inductive Enumerates (P : Provider σ) (p : Projection Expr) (s₀ : ProviderState σ) :
    ProviderState σ → List Reader → Prop
  | fresh : Enumerates P p s₀ s₀ []
  | execute {s readers e x s'} (h : Enumerates P p s₀ s readers) (hp : P.BindsTo e p)
      (hrun : (P.execute e).run.run s = (x, s')) :
      Enumerates P p s₀ s' (x.toOption.toList ++ readers)
  | executeProjection {s readers outer x s'} (h : Enumerates P p s₀ s readers)
      (hrun : (P.executeProjection p outer).run.run s = (x, s')) :
      Enumerates P p s₀ s' (x.toOption.toList ++ readers)
  | next {s readers r item r' s'} (h : Enumerates P p s₀ s readers) (hr : r ∈ readers)
      (hrun : (P.executor.next r).run s = ((item, r'), s')) : Enumerates P p s₀ s' (r' :: readers)
  | collect {s readers r α} {convert : Value → Except Error α} {x s'}
      (h : Enumerates P p s₀ s readers) (hr : r ∈ readers)
      (hrun : (P.executor.collect convert r).run s = (x, s')) : Enumerates P p s₀ s' readers
  | drop {s readers r s'} (h : Enumerates P p s₀ s readers) (hr : r ∈ readers)
      (hrun : (P.executor.drop r).run s = ((), s')) : Enumerates P p s₀ s' readers
  | meanwhile {s readers rows} (h : Enumerates P p s₀ s readers) :
      Enumerates P p s₀ { s with rows } readers

theorem BindsTo.unique {e : Expr} {p' : Projection Expr} (h : P.BindsTo e p) (h' : P.BindsTo e p') :
    p = p' := by
  obtain ⟨e₁, hfold, hbind⟩ := h
  obtain ⟨e₂, hfold', hbind'⟩ := h'
  cases hfold.symm.trans hfold'
  exact Except.ok.inj (hbind.symm.trans hbind')

theorem Enumerates.bounded {s₀ s : ProviderState σ} {readers : List Reader}
    (h : P.Enumerates p s₀ s readers) (hs₀ : IsSound s₀) :
    Bounded p.cacheKeys s₀ s ∧
      ∀ r ∈ readers, ∀ q ∈ r.materializer.subqueries, q.cacheKeys ⊆ p.cacheKeys := by
  have hX := executor_bounded P p.cacheKeys s₀
  have hstart {s s' readers outer x} (hrun : Starts P p outer s x s')
      (ih : Bounded p.cacheKeys s₀ s ∧
        ∀ r ∈ readers, ∀ q ∈ r.materializer.subqueries, q.cacheKeys ⊆ p.cacheKeys) :
      Bounded p.cacheKeys s₀ s' ∧ ∀ r ∈ x.toOption.toList ++ readers,
        ∀ q ∈ r.materializer.subqueries, q.cacheKeys ⊆ p.cacheKeys := by
    obtain ⟨hs', hr⟩ := hrun.bounded ih.1 (List.Subset.refl _)
    refine ⟨hs', ?_⟩
    intro r hmem
    cases x with
    | error e => exact ih.2 r hmem
    | ok r' =>
        rcases List.mem_cons.mp hmem with rfl | hmem
        · exact (hr r rfl).2
        · exact ih.2 r hmem
  induction h with
  | fresh => exact ⟨⟨hs₀, .refl _ _⟩, List.forall_mem_nil _⟩
  | execute _ hp hrun ih =>
      rcases execute_cases hrun with ⟨err, rfl, rfl⟩ | ⟨p', hp', hrun⟩
      · exact ih
      · rw [← hp.unique hp'] at hrun
        exact hstart hrun ih
  | executeProjection _ hrun ih => exact hstart (executeProjection_starts hrun) ih
  | next _ hr hrun ih =>
      refine ⟨Executor.next_keeps (k := 0) hX (ih.2 _ hr) hrun ih.1, ?_⟩
      intro r' hr'
      rcases List.mem_cons.mp hr' with rfl | hr'
      · rw [Executor.nextWith_materializer hrun]
        exact ih.2 _ hr
      · exact ih.2 r' hr'
  | collect _ hr hrun ih => exact ⟨Executor.collect_keeps (k := 0) hX (ih.2 _ hr) hrun ih.1, ih.2⟩
  | @drop s readers r s' _ hr hrun ih =>
      have hs' := Executor.drop_keeps (k := 0) hX r ih.1
      rw [hrun] at hs'
      exact ⟨hs', ih.2⟩
  | meanwhile _ ih => exact ⟨⟨ih.1.sound, ih.1.grows⟩, ih.2⟩

/-- The keys that a bound query can bring into the cache are known from the query alone: at most one
more than there are projections to be reached through its projector. However often it is run and read,
completely, in part or with failures, from whatever row source, the cache grows by entries for some of
these keys, each of them once. -/
theorem cache_keys_bounded (p : Projection Expr) :
    p.cacheKeys.length ≤ 1 + p.projector.projections.length ∧
      ∀ (σ : Type) (P : Provider σ) (s₀ s : ProviderState σ) (readers : List Reader), IsSound s₀ →
        P.Enumerates p s₀ s readers → s₀.cache.Grows p.cacheKeys s.cache ∧
          s.cache.size ≤ s₀.cache.size + (1 + p.projector.projections.length) := by
  refine ⟨p.length_cacheKeys.le, ?_⟩
  intro σ P s₀ s readers hs₀ h
  have hgrows := (h.bounded hs₀).1.grows
  refine ⟨hgrows, ?_⟩
  rw [← p.length_cacheKeys]
  exact hgrows.size_le

/-- The items of owners, read up to the first owner: the cache holds both of the two keys that the
query has. -/
theorem cache_keys_bounded_of_itemsByOwner :
    let P : Provider Unit :=
      ⟨Binding.ownership, {}, always [[.int32 7, .int32 1], [.int32 9, .int32 2]]⟩
    ∃ p s readers, P.BindsTo Binding.itemsByOwner p ∧ P.Enumerates p ⟨(), {}⟩ s readers ∧
      p.projector.projections.length = 1 ∧ s.cache.size = 2 ∧
      MaterializerCache.Grows p.cacheKeys {} s.cache := by
  intro P
  obtain ⟨p, hp, hprojections⟩ : ∃ p, P.BindsTo Binding.itemsByOwner p ∧
      p.projector.projections.length = 1 := ⟨_, ⟨_, by cbv, by cbv⟩, by cbv⟩
  obtain ⟨r, s, hr, v, r', s', hnext, hsize⟩ : ∃ r s,
      (P.execute Binding.itemsByOwner).run.run ⟨(), {}⟩ = (.ok r, s) ∧
      ∃ v r' s', (P.executor.next r).run s = ((some (.ok v), r'), s') ∧ s'.cache.size = 2 :=
    ⟨_, _, by cbv, _, _, _, by cbv, by cbv⟩
  have h : P.Enumerates p ⟨(), {}⟩ s' [r', r] :=
    .next (.execute .fresh hp hr) List.mem_cons_self hnext
  have hgrows := (cache_keys_bounded p).2 Unit P ⟨(), {}⟩ _ _ MaterializerCache.isSound_empty h
  exact ⟨p, s', [r', r], hp, h, hprojections, hsize, hgrows.1⟩

end Provider

end Quarry
