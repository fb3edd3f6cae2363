import Quarry.Proofs.Correlation
import Quarry.Proofs.Reading
/-!
How a provider starts a bound query: its text is written, its materializer is found or built, and the
text is sent to the row source. The steps before the last change nothing but the cache.
-/
namespace Quarry

/-- The row source answers the text of a select with the rows that the select has in a database. -/
def RowSource.Answers {σ : Type} (source : RowSource σ) (db : Database) (find : Finder)
    (style : Sql.Style) : Prop :=
  ∀ select text, Sql.format style (.select select) = .ok text →
    ∀ s answer s', (source.execute text).run.run s = (.ok answer, s') →
      ∃ rows, db.selectRows find [] select = .ok rows ∧ answer = rows.map fun row => row.map (·.2)

namespace Provider

variable {σ : Type} {P : Provider σ} {p : Projection Expr} {s s' : ProviderState σ}

/-- The materializer of a projection, and the cache after it has been found or built. -/
def compile (P : Provider σ) (c : MaterializerCache) (p : Projection Expr) :
    Except Error (Materializer × MaterializerCache) :=
  if P.settings.cacheMaterializers then
    (c.getOrBuild p).map fun x => (x.1.materializer, x.2)
  else (Materializer.build p).map fun m => (m, c)

theorem materializer_run (s : ProviderState σ) :
    (P.materializer p).run.run s =
      match P.compile s.cache p with
      | .ok (m, cache) => (.ok m, { s with cache })
      | .error e => (.error e, s) := by
  unfold materializer compile
  split
  · let rest (x : Except Error (Compiled × MaterializerCache)) :
        Action (ProviderState σ) Materializer := do
      let built ← x
      set { s with cache := built.2 }
      return built.1.materializer
    show (rest (s.cache.getOrBuild p)).run.run s = _
    cases s.cache.getOrBuild p <;> rfl
  · cases Materializer.build p <;> rfl

/-- In a sound cache the materializer of a projection is the one that is built for it. -/
theorem compile_of_isSound {c : MaterializerCache} (hc : c.IsSound) :
    (P.compile c p).map Prod.fst = Materializer.build p := by
  unfold compile
  split
  · unfold MaterializerCache.getOrBuild
    split
    next compiled hlookup => exact (hc _ (mem_of_lookup hlookup)).symm
    next =>
      unfold MaterializerCache.build
      cases Materializer.build p <;> rfl
  · cases Materializer.build p <;> rfl

theorem IsSound.compile {m : Materializer} {c c' : MaterializerCache} (hc : c.IsSound)
    (h : P.compile c p = .ok (m, c')) : Materializer.build p = .ok m ∧ c'.IsSound := by
  unfold Provider.compile at h
  split at h
  · obtain ⟨x, hx, heq⟩ := map_eq_ok.mp h
    cases heq
    exact hc.getOrBuild hx
  · obtain ⟨m', hm, heq⟩ := map_eq_ok.mp h
    cases heq
    exact ⟨hm, hc⟩

/-- An action of the row source leaves the cache alone. -/
theorem onSource_cases {α : Type} {a : Action σ α} {x : Except Error α}
    (h : (onSource a).run.run s = (x, s')) :
    a.run.run s.rows = (x, s'.rows) ∧ s'.cache = s.cache := by
  cases h
  exact ⟨rfl, rfl⟩

theorem send_run (sql : String) (s : ProviderState σ) :
    (P.send sql).run.run s =
      match (P.source.execute sql).run.run s.rows with
      | (.ok answer, rows) => (.ok answer, { s with rows })
      | (.error e, rows) => (.error (e.withField "sql" sql), { s with rows }) := by
  let rest (x : Except Error (List Row) × σ) :
      Except Error (List Row) × ProviderState σ :=
    ((tryCatch (ExceptT.mk (pure x.1) : Action (ProviderState σ) (List Row)) fun e =>
      throw (e.withField "sql" sql)).run.run { s with rows := x.2 })
  show rest ((P.source.execute sql).run.run s.rows) = _
  rcases (P.source.execute sql).run.run s.rows with ⟨x, rows⟩
  cases x <;> rfl

/-- How the start of a bound query ends. -/
inductive Starts (P : Provider σ) (p : Projection Expr) (outer : List Row) (s : ProviderState σ) :
    Except Error Reader → ProviderState σ → Prop
  | unplanned {e} : Starts P p outer s (.error e) s
  | unanswered {sql m cache e rows}
      (hsql : Sql.format P.style (.select p.source) = .ok sql)
      (hm : P.compile s.cache p = .ok (m, cache))
      (hanswer : (P.source.execute sql).run.run s.rows = (.error e, rows)) :
      Starts P p outer s (.error (e.withField "sql" sql)) ⟨rows, cache⟩
  | answered {sql m cache answer rows}
      (hsql : Sql.format P.style (.select p.source) = .ok sql)
      (hm : P.compile s.cache p = .ok (m, cache))
      (hanswer : (P.source.execute sql).run.run s.rows = (.ok answer, rows)) :
      Starts P p outer s (.ok ⟨some (.ofRows answer), m, outer⟩) ⟨rows, cache⟩

/-- A plan is the text and the materializer of a projection; making one touches only the cache. -/
theorem plan_cases {x : Except Error Plan} (h : (P.plan p).run.run s = (x, s')) :
    (∃ e, x = .error e ∧ s' = s) ∨
      ∃ sql m cache, Sql.format P.style (.select p.source) = .ok sql ∧
        P.compile s.cache p = .ok (m, cache) ∧ x = .ok ⟨sql, p, m⟩ ∧ s' = { s with cache } := by
  rw [plan] at h
  rcases run_bind_cases h with ⟨e, hsql, rfl⟩ | ⟨sql, s₁, hsql, h⟩
  · obtain ⟨-, rfl⟩ := run_lift_eq hsql
    exact .inl ⟨e, rfl, rfl⟩
  obtain ⟨htext, rfl⟩ := run_lift_eq hsql
  rcases run_bind_cases h with ⟨e, hm, rfl⟩ | ⟨m, s₂, hm, h⟩
  · rw [materializer_run] at hm
    split at hm
    next => cases hm
    next =>
      cases hm
      exact .inl ⟨e, rfl, rfl⟩
  · rw [materializer_run] at hm
    split at hm
    next m' cache hcompile =>
      cases hm
      cases h
      exact .inr ⟨sql, m, cache, htext, hcompile, rfl, rfl⟩
    next => cases hm

theorem executeProjection_starts {outer : List Row} {x : Except Error Reader}
    (h : (P.executeProjection p outer).run.run s = (x, s')) : Starts P p outer s x s' := by
  rw [executeProjection] at h
  rcases run_bind_cases h with ⟨e, hplan, rfl⟩ | ⟨plan, s₁, hplan, h⟩
  · rcases plan_cases hplan with ⟨e, -, rfl⟩ | ⟨sql, m, cache, -, -, hx, -⟩
    · exact .unplanned
    · cases hx
  rcases plan_cases hplan with ⟨e, hx, -⟩ | ⟨sql, m, cache, hsql, hm, hx, rfl⟩
  · cases hx
  cases hx
  rw [start] at h
  rcases run_bind_cases h with ⟨e, hsend, rfl⟩ | ⟨answer, s₂, hsend, h⟩
  · rw [send_run] at hsend
    split at hsend
    next => cases hsend
    next e rows hanswer =>
      cases hsend
      exact .unanswered hsql hm hanswer
  · rw [send_run] at hsend
    split at hsend
    next answer rows hanswer =>
      cases hsend
      cases h
      exact .answered hsql hm hanswer
    next => cases hsend

variable {db : Database} {find : Finder}

/-- A provider without a cache, over a row source that answers the text of a select with its rows,
answers a bound query with the rows of its select. -/
theorem executor_answers (hcache : P.settings.cacheMaterializers = false)
    (hsource : P.source.Answers db find P.style) : P.executor.Answers db find P.settings := by
  rintro p outer r ⟨s, s', h⟩
  cases executeProjection_starts h with
  | @answered sql m cache answer rows' hsql hm hanswer =>
      obtain ⟨rows, hrows, rfl⟩ := hsource _ _ hsql _ _ _ hanswer
      have hbuild : Materializer.build p = .ok m := by
        rw [compile, hcache] at hm
        obtain ⟨m', hm', heq⟩ := map_eq_ok.mp hm
        cases heq
        exact hm'
      exact ⟨sql, m, rows, hsql, hbuild, hrows, rfl⟩

/-- The bound query that a composed one is prepared to. -/
def BindsTo (P : Provider σ) (e : Expr) (p : Projection Expr) : Prop :=
  ∃ e', e.foldLocal = .ok e' ∧ Binding.bind P.catalog P.settings.identifierCase e' = .ok p

variable {e : Expr}

theorem prepare_cases {x : Except Error Plan} (h : (P.prepare e).run.run s = (x, s')) :
    (∃ err, x = .error err ∧ s' = s) ∨ ∃ p, P.BindsTo e p ∧ (P.plan p).run.run s = (x, s') := by
  rw [prepare] at h
  rcases run_bind_cases h with ⟨err, hfold, rfl⟩ | ⟨e', s₁, hfold, h⟩
  · obtain ⟨-, rfl⟩ := run_lift_eq hfold
    exact .inl ⟨err, rfl, rfl⟩
  obtain ⟨hfolded, rfl⟩ := run_lift_eq hfold
  rcases run_bind_cases h with ⟨err, hbind, rfl⟩ | ⟨p, s₂, hbind, h⟩
  · obtain ⟨-, rfl⟩ := run_lift_eq hbind
    exact .inl ⟨err, rfl, rfl⟩
  obtain ⟨hbound, rfl⟩ := run_lift_eq hbind
  exact .inr ⟨p, ⟨e', hfolded, hbound⟩, h⟩

/-- To prepare a query does not touch the row source. -/
theorem prepare_rows {x : Except Error Plan} (h : (P.prepare e).run.run s = (x, s')) :
    s'.rows = s.rows := by
  rcases prepare_cases h with ⟨-, -, rfl⟩ | ⟨p, -, hplan⟩
  · rfl
  · rcases plan_cases hplan with ⟨-, -, rfl⟩ | ⟨sql, m, cache, -, -, -, rfl⟩
    · rfl
    · rfl

/-- A composed query is run as the query that it is bound to. -/
theorem execute_cases {x : Except Error Reader} (h : (P.execute e).run.run s = (x, s')) :
    (∃ err, x = .error err ∧ s' = s) ∨ ∃ p, P.BindsTo e p ∧ Starts P p [] s x s' := by
  rw [execute] at h
  rcases run_bind_cases h with ⟨err, hprepare, rfl⟩ | ⟨plan, s₁, hprepare, hstart⟩
  · rcases prepare_cases hprepare with ⟨-, -, rfl⟩ | ⟨p, hp, hplan⟩
    · exact .inl ⟨err, rfl, rfl⟩
    · refine .inr ⟨p, hp, executeProjection_starts ?_⟩
      rw [executeProjection, ExceptT.run_bind, StateT.run_bind, hplan]
      rfl
  · rcases prepare_cases hprepare with ⟨err, hx, -⟩ | ⟨p, hp, hplan⟩
    · cases hx
    · refine .inr ⟨p, hp, executeProjection_starts ?_⟩
      rw [executeProjection, ExceptT.run_bind, StateT.run_bind, hplan]
      exact hstart

end Provider

/-- For each owner the list of the owner's items. -/
def Binding.itemsByOwner : Expr :=
  let owner : Parameter := ⟨0, "o", .entity "Owner"⟩
  let item : Parameter := ⟨1, "i", .entity "Item"⟩
  .call .select none [.collection "Owner", .lambda [owner] (.call .toList none
    [.call .filter none [.collection "Item", .lambda [item] (.binary (.comparison .eq)
      (.member (.parameter item) "Owner") (.member (.parameter owner) "Id"))]])]

end Quarry
