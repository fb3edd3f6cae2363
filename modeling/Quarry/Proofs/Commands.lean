import Quarry.Proofs.Cursors
/-!
Which commands reading a query sends, and in which order: its own text, then for each row the nested
projections of the projector from left to right, each of them with the commands of reading its own
rows. Composing and translating a query sends none.
-/
namespace Quarry

/-- A command with the rows that it is answered with. -/
abbrev Exchange := String × List Row

/-- A reader that stands on a row inside others. -/
def Reader.standing (row : Row) (outer : List Row) : Reader :=
  ⟨some ⟨row.length, some row, []⟩, .constant .null, outer⟩

mutual

/-- The exchanges of reading a bound query to the end, for the rows that enclose it: its own, and then
those of its rows. -/
inductive Issues (style : Sql.Style) :
    Projection Expr → List Row → List Exchange → Prop
  | query {p outer sql rows xs} (hsql : Sql.format style (.select p.source) = .ok sql)
      (hrows : IssuesForRows style p.nested outer rows xs) : Issues style p outer ((sql, rows) :: xs)

/-- The exchanges of rows one after the other. -/
inductive IssuesForRows (style : Sql.Style) :
    List (Projection Expr) → List Row → List Row → List Exchange → Prop
  | nil {qs outer} : IssuesForRows style qs outer [] []
  | cons {qs outer row rows xs ys} (hrow : IssuesForRow style qs row outer xs)
      (hrest : IssuesForRows style qs outer rows ys) :
      IssuesForRows style qs outer (row :: rows) (xs ++ ys)

/-- The exchanges of the nested projections of one row, each made ready for it and read to the
end. -/
inductive IssuesForRow (style : Sql.Style) :
    List (Projection Expr) → Row → List Row → List Exchange → Prop
  | nil {row outer} : IssuesForRow style [] row outer []
  | cons {q qs row outer source xs ys}
      (hsource : (Reader.standing row outer).specialize q.source = .ok source)
      (hq : Issues style { q with source } (row :: outer) xs)
      (hrest : IssuesForRow style qs row outer ys) :
      IssuesForRow style (q :: qs) row outer (xs ++ ys)

end

/-- What makes a nested select ready for a row are the row and those around it. -/
theorem Reader.specialize_standing {r : Reader} {c : Cursor} {row : Row}
    (hcursor : r.cursor = some c) (hcurrent : c.current = some row) (s : Select Expr) :
    r.specialize s = (standing row r.outer).specialize s := by
  have hfield : r.field = (standing row r.outer).field := by
    funext ordinal
    simp only [field, hcursor, Cursor.fieldCount, hcurrent, Cursor.field]
    rfl
  have hnode : r.substituteNode = (standing row r.outer).substituteNode := by
    funext e
    cases e with
    | outerRow o =>
        obtain ⟨depth, ordinal, t⟩ := o
        cases depth with
        | zero => simp only [substituteNode, enclosingField, hfield]
        | succ depth => rfl
    | _ => rfl
  unfold specialize
  rw [hnode]

/-- From one state to another these exchanges were logged, and the invariant was kept. -/
structure Logged {σ : Type} (log : σ → List Exchange) (Inv : σ → Prop) (s : σ) (xs : List Exchange)
    (s' : σ) : Prop where
  kept : Inv s'
  added : log s' = log s ++ xs

namespace Logged

variable {σ : Type} {log : σ → List Exchange} {Inv : σ → Prop} {s s₁ s₂ : σ} {xs ys : List Exchange}

theorem nothing (hs : Inv s₁) (h : log s₁ = log s) : Logged log Inv s [] s₁ :=
  ⟨hs, by rw [h, List.append_nil]⟩

theorem trans (h : Logged log Inv s xs s₁) (h' : Logged log Inv s₁ ys s₂) :
    Logged log Inv s (xs ++ ys) s₂ :=
  ⟨h'.kept, by rw [h'.added, h.added, List.append_assoc]⟩

end Logged

/-- Items are asked for until there is none, and all of them are values. -/
inductive ReadsAll {σ : Type} (next : Reader → StateM σ (Option (Except Error Value) × Reader)) :
    Reader → σ → List Value → σ → Prop
  | ended {r s r' s'} (h : (next r).run s = ((none, r'), s')) : ReadsAll next r s [] s'
  | item {r s v r₁ s₁ vs s'} (h : (next r).run s = ((some (.ok v), r₁), s₁))
      (hrest : ReadsAll next r₁ s₁ vs s') : ReadsAll next r s (v :: vs) s'

namespace Executor

variable {σ : Type} {X : Executor σ} {nested : Nested σ} {r r' : Reader} {c : Cursor} {s s' : σ}

theorem readsAll_of_next {vs : List Value} (h : ReadsAll X.next r s vs s') :
    ReadsAll (X.nextWith (X.nestedTo r.materializer.nesting)) r s vs s' := by
  induction h with
  | ended h => exact .ended h
  | item h _ ih =>
      rw [nextWith_materializer h] at ih
      exact .item h ih

/-- Where all items are collected, they are read one by one. -/
theorem readsAll_of_collectWith {α : Type} {convert : Value → Except Error α} {count : Nat}
    {as : List α} (h : (X.collectWith nested convert count r).run s = (.ok as, s'))
    (hcount : r.stepsLeft ≤ count) : ∃ vs, ReadsAll (X.nextWith nested) r s vs s' := by
  induction count generalizing r s as with
  | zero =>
      -- A reader has one more step than rows, so the count does not run out before the end.
      unfold Reader.stepsLeft at hcount
      omega
  | succ count ih =>
      rcases collectWith_cases h with ⟨r₁, hnext, -⟩ | ⟨item, r₁, s₁, e, -, hx, -⟩ |
        ⟨v, a, r₁, s₁, y, hnext, -, hrest, hx⟩
      · exact ⟨[], .ended hnext⟩
      · cases hx
      · obtain ⟨as', rfl, -⟩ := map_eq_ok.mp hx.symm
        have hleft : r₁.stepsLeft ≤ count := by
          cases hr : r.cursor with
          | none =>
              rw [nextWith_finished (by simp [Reader.isFinished, hr])] at hnext
              cases hnext
          | some c =>
              cases nextWith_advances hr hnext with
              | built hread hrow hrun =>
                  simp only [Reader.stepsLeft, hr, Option.map_some, Option.getD_some, hrow,
                    List.length_cons] at hcount
                  simp only [Reader.stepsLeft, onRow, Option.map_some, Option.getD_some]
                  omega
        obtain ⟨vs, hvs⟩ := ih hrest hleft
        exact ⟨v :: vs, .item hnext hvs⟩

/-- A bound query was started: its text was logged with the rows of the answer, and the reader stands
before the first of them. -/
def Started (style : Sql.Style) (log : σ → List Exchange) (Inv : σ → Prop) (p : Projection Expr)
    (outer : List Row) (s : σ) (r : Reader) (s' : σ) : Prop :=
  ∃ sql rows m, Sql.format style (.select p.source) = .ok sql ∧ m.subqueries = p.nested ∧
    r = ⟨some (.ofRows rows), m, outer⟩ ∧ Logged log Inv s [(sql, rows)] s'

/-- Nothing is logged but the starts that succeed. -/
structure Records (X : Executor σ) (style : Sql.Style) (log : σ → List Exchange) (Inv : σ → Prop) :
    Prop where
  start : ∀ p outer s r s', Inv s → (X.start p outer).run.run s = (.ok r, s') →
    Started style log Inv p outer s r s'
  beforeRead : ∀ s s', Inv s → X.beforeRead.run.run s = (.ok (), s') → Logged log Inv s [] s'
  release : ∀ s, Inv s → Logged log Inv s [] (X.release s)

variable {style : Sql.Style} {log : σ → List Exchange} {Inv : σ → Prop}

/-- A nested projection that succeeds issues its own exchanges, made ready for the row of its
reader. -/
def NestedIssues (nested : Nested σ) (style : Sql.Style) (log : σ → List Exchange)
    (Inv : σ → Prop) : Prop :=
  ∀ r c row q s v s', r.cursor = some c → c.current = some row → Inv s →
    (nested r q).run.run s = (.ok v, s') → ∃ source xs,
      (Reader.standing row r.outer).specialize q.source = .ok source ∧
        Issues style { q with source } (row :: r.outer) xs ∧ Logged log Inv s xs s'

theorem calls_issue {row : Row} {qs : List (Projection Expr)}
    (hnested : NestedIssues nested style log Inv) (hr : r.cursor = some c)
    (hc : c.current = some row) (h : Calls (nested r) qs s true s') (hs : Inv s) :
    ∃ xs, IssuesForRow style qs row r.outer xs ∧ Logged log Inv s xs s' := by
  -- The row has a value, so that none of the projections has failed.
  generalize hcomplete : true = complete at h
  induction h with
  | done => exact ⟨[], .nil, .nothing hs rfl⟩
  | stopped => cases hcomplete
  | failed => cases hcomplete
  | called hcall _ ih =>
      obtain ⟨source, xs, hsource, hissues, hlogged⟩ := hnested _ _ _ _ _ _ _ hr hc hs hcall
      obtain ⟨ys, hrest, hlogged'⟩ := ih hlogged.kept hcomplete
      exact ⟨xs ++ ys, .cons hsource hissues hrest, hlogged.trans hlogged'⟩

/-- Reading to the end issues the exchanges of each row in turn. -/
theorem readsAll_issue {vs : List Value} (hX : X.Records style log Inv)
    (hnested : NestedIssues nested style log Inv) (h : ReadsAll (X.nextWith nested) r s vs s')
    (hr : r.cursor = some c) (hs : Inv s) :
    ∃ xs, IssuesForRows style r.materializer.subqueries r.outer c.rest xs ∧
      Logged log Inv s xs s' := by
  induction h generalizing c with
  | ended h =>
      cases nextWith_advances hr h with
      | ended hread hrest =>
          rw [hrest]
          have hread := hX.beforeRead _ _ hs hread
          exact ⟨[], .nil, hread.trans (hX.release _ hread.kept)⟩
  | item h _ ih =>
      cases nextWith_advances hr h with
      | built hread hrest hrun =>
          rw [hrest]
          have hread := hX.beforeRead _ _ hs hread
          have hcalls := run_runsOnly _ _ _ _ hrun
          obtain ⟨xs, hrow, hlogged⟩ := calls_issue hnested rfl rfl hcalls hread.kept
          obtain ⟨ys, hrows, hlogged'⟩ := ih rfl hlogged.kept
          exact ⟨xs ++ ys, .cons hrow hrows, (hread.trans hlogged).trans hlogged'⟩

theorem started_issue {p : Projection Expr} {outer : List Row} {s₁ : σ} {vs : List Value}
    (hX : X.Records style log Inv) (hnested : NestedIssues nested style log Inv)
    (hstart : Started style log Inv p outer s r s₁) (h : ReadsAll (X.nextWith nested) r s₁ vs s') :
    ∃ xs, Issues style p outer xs ∧ Logged log Inv s xs s' := by
  obtain ⟨sql, rows, m, hsql, hm, rfl, hlogged⟩ := hstart
  obtain ⟨xs, hrows, hlogged'⟩ := readsAll_issue hX hnested h rfl hlogged.kept
  rw [hm] at hrows
  exact ⟨(sql, rows) :: xs, .query hsql hrows, hlogged.trans hlogged'⟩

theorem nestedTo_issue (hX : X.Records style log Inv) (depth : Nat) :
    NestedIssues (X.nestedTo depth) style log Inv := by
  induction depth with
  | zero =>
      intro r c row q s v s' _ _ _ h
      cases h
  | succ depth ih =>
      intro r c row q s v s' hr hc hs h
      rw [nestedTo] at h
      rcases run_bind_cases h with ⟨e, -, hx⟩ | ⟨source, s₁, hsource, h⟩
      · cases hx
      obtain ⟨hspecialize, rfl⟩ := run_lift_eq hsource
      rcases run_bind_cases h with ⟨e, -, hx⟩ | ⟨values, s₂, hvalues, h⟩
      · cases hx
      obtain ⟨hsnapshot, rfl⟩ := run_lift_eq hvalues
      cases Reader.snapshot_of_current hr hc hsnapshot
      rcases run_bind_cases h with ⟨e, -, hx⟩ | ⟨inner, s₃, hstart, h⟩
      · cases hx
      rcases run_bind_cases h with ⟨e, -, hx⟩ | ⟨items, s₄, hcollect, h⟩
      · cases hx
      cases h
      obtain ⟨vs, hvs⟩ := readsAll_of_collectWith hcollect le_rfl
      obtain ⟨xs, hissues, hlogged⟩ := started_issue hX ih (hX.start _ _ _ _ _ hs hstart) hvs
      rw [Reader.specialize_standing hr hc] at hspecialize
      exact ⟨source, xs, hspecialize, hissues, hlogged⟩

end Executor

/-- Every command that is answered is logged with its answer, and nothing else is. -/
structure RowSource.Records {σ : Type} (S : RowSource σ) (log : σ → List Exchange) : Prop where
  execute : ∀ sql s rows s', (S.execute sql).run.run s = (.ok rows, s') →
    log s' = log s ++ [(sql, rows)]
  beforeRead : ∀ s s', S.beforeRead.run.run s = (.ok (), s') → log s' = log s
  close : ∀ s, log (S.close s) = log s

namespace Memory

/-- The commands so far with their answers. -/
def exchanges (m : Memory) : List Exchange :=
  m.executed.map fun command => (command, (m.answer? command).getD [])

theorem exchanges_commands (m : Memory) : m.exchanges.map Prod.fst = m.executed := by
  rw [exchanges, List.map_map]
  exact List.map_id _

theorem source_records : source.Records exchanges where
  execute := by
    intro sql m rows m' h
    replace h : (Memory.execute sql).run.run m = (.ok rows, m') := h
    rw [execute_run] at h
    dsimp only at h
    split at h
    next rows' hanswer =>
      cases h
      show (m.executed ++ [sql]).map (fun command => (command, (m.answer? command).getD [])) = _
      have hanswer : m.answer? sql = some rows := hanswer
      rw [List.map_append, List.map_singleton, hanswer]
      rfl
    next => cases h
  beforeRead := by
    intro m m' h
    replace h : Memory.beforeRead.run.run m = (.ok (), m') := h
    rw [beforeRead_run] at h
    have hm : { m with reads := m.reads + 1 } = m' := congrArg Prod.snd h
    rw [← hm]
    rfl
  close _ := rfl

end Memory

namespace Provider

variable {σ : Type} {P : Provider σ} {log : σ → List Exchange}

theorem Starts.started {p : Projection Expr} {outer : List Row} {s s' : ProviderState σ} {r : Reader}
    (h : Starts P p outer s (.ok r) s') (hlog : P.source.Records log) (hs : IsSound s) :
    Executor.Started P.style (fun s => log s.rows) IsSound p outer s r s' := by
  cases h with
  | answered hsql hm hanswer =>
      obtain ⟨hbuild, hsound⟩ := IsSound.compile hs hm
      exact ⟨_, _, _, hsql, Materializer.subqueries_of_build hbuild, rfl, hsound,
        hlog.execute _ _ _ _ hanswer⟩

theorem executor_records (hlog : P.source.Records log) :
    P.executor.Records P.style (fun s => log s.rows) IsSound where
  start := by
    intro p outer s r s' hs h
    exact (executeProjection_starts h).started hlog hs
  beforeRead := by
    intro s s' hs h
    obtain ⟨hread, hcache⟩ := onSource_cases h
    have hsound : IsSound s' := by
      rw [IsSound, hcache]
      exact hs
    exact .nothing hsound (hlog.beforeRead _ _ hread)
  release := by
    intro s hs
    exact .nothing hs (hlog.close s.rows)

/-- Reading the rows of a composed query to the end issues the exchanges of the bound one. -/
theorem execute_issue {e : Expr} {r : Reader} {s s₁ s₂ : ProviderState σ} {vs : List Value}
    (hlog : P.source.Records log) (hs : IsSound s) (h : (P.execute e).run.run s = (.ok r, s₁))
    (hread : ReadsAll (P.executor.nextWith (P.executor.nestedTo r.materializer.nesting)) r s₁ vs s₂) :
    ∃ p xs, P.BindsTo e p ∧ Issues P.style p [] xs ∧ log s₂.rows = log s.rows ++ xs := by
  rcases execute_cases h with ⟨err, hx, -⟩ | ⟨p, hp, hstart⟩
  · cases hx
  have hX := executor_records hlog
  obtain ⟨xs, hissues, hlogged⟩ :=
    Executor.started_issue hX (Executor.nestedTo_issue hX _) (hstart.started hlog hs) hread
  exact ⟨p, xs, hp, hissues, hlogged.added⟩

end Provider

namespace Session

variable {α β : Type}

/-- Composes or translates a query. -/
def Step.composes : Step α → Bool
  | .prepare .. | .query .. | .filter .. | .select .. | .join .. | .toList .. | .existence ..
  | .absence .. | .sql .. => true
  | _ => false

theorem releaseHandle_executed {P : Provider Memory} (hP : P.source = Memory.source) (h : Handle α)
    (state : ProviderState Memory) :
    ((releaseHandle P h).run state).2.rows.executed = state.rows.executed := by
  have hrelease : (P.executor.release state).rows.executed = state.rows.executed := by
    show (P.source.close state.rows).executed = _
    rw [hP]
    rfl
  have hdrop (r : Reader) :
      ((P.executor.drop r).run state).2.rows.executed = state.rows.executed := by
    unfold Executor.drop
    cases r.isFinished with
    | true => rfl
    | false => exact hrelease
  match h with
  | .query _ | .results none _ => rfl
  | .results (some r) _ | .iterator r _ | .reader r => exact hdrop r
  | .cursor c => exact hrelease

/-- The commands that a session over memory has executed. -/
def HasExecuted (commands : List String) (s : Session α) : Prop :=
  s.provider.source = Memory.source ∧ s.state.rows.executed = commands

variable {commands : List String}

/-- A part of a step that executes nothing. -/
abbrev Silent (commands : List String) (a : SessionM α β) : Prop :=
  Ensures (HasExecuted commands) (HasExecuted commands) a fun _ => HasExecuted commands

theorem keepQuery_silent (name : String) (e : Expr) :
    Silent commands (keepQuery name e : SessionM α (Answer α)) := by
  have hkeep : Silent commands (keep name (.query e) : SessionM α Unit) := by
    refine ensures_iff.mpr fun s x s' hs hrun => ?_
    rw [keep_run] at hrun
    split at hrun
    next old hlookup =>
      have hreleased := releaseHandle_executed hs.1 old s.state
      cases hrun
      exact ⟨hs.1, hreleased.trans hs.2⟩
    next =>
      cases hrun
      exact hs
  exact hkeep.bind fun _ => .pure fun _ hs => hs

theorem prepare_silent (e : Expr) :
    Silent commands (act (·.prepare e) : SessionM α Plan) := by
  refine .act fun s x state hs hrun => ?_
  have hs' : HasExecuted commands { s with state } := by
    refine ⟨hs.1, ?_⟩
    show state.rows.executed = commands
    rw [Provider.prepare_rows hrun]
    exact hs.2
  cases x with
  | error e => exact hs'
  | ok v => exact hs'

theorem step_silent (st : Step α) (hst : st.composes) : Silent commands (step st) := by
  cases st with
  | prepare e => exact (prepare_silent e).bind fun _ => .pure fun _ hs => hs
  | query name e => exact keepQuery_silent name e
  | filter source name e | select source name e | existence source name e | absence source name e =>
      exact (Ensures.findQuery source fun _ hs => hs).bind fun q => keepQuery_silent name _
  | join outer inner name outerKey innerKey result =>
      refine (Ensures.findQuery outer fun _ hs => hs).bind fun o => ?_
      exact (Ensures.findQuery inner fun _ hs => hs).bind fun i => keepQuery_silent name _
  | toList source name =>
      exact (Ensures.findQuery source fun _ hs => hs).bind fun q => keepQuery_silent name _
  | sql query =>
      refine (Ensures.findQuery query fun _ hs => hs).bind fun e => ?_
      exact (prepare_silent e).bind fun _ => .pure fun _ hs => hs
  | _ => cases hst

end Session

/-- The commands of an enumeration are the nested ones, once for each row and in order. If the rows of
a query are read to the end without an error, one by one or all at once, from a row source that logs
its exchanges, then those are logged that the bound query issues, and no other. The source in memory
is one that logs. Nothing is sent by composing a query, by translating it or by asking for its
text. -/
theorem commands_exact :
    (∀ {σ : Type} (P : Provider σ) (log : σ → List Exchange), P.source.Records log →
      ∀ (e : Expr) (s : ProviderState σ), Provider.IsSound s →
        (∀ r s₁ s₂, (P.execute e).run.run s = (.ok r, s₁) →
          ((∃ vs, ReadsAll P.executor.next r s₁ vs s₂) ∨ ∃ (α : Type) (convert : Value → Except Error α)
            (as : List α), (P.executor.collect convert r).run s₁ = (.ok as, s₂)) →
          ∃ p xs, P.BindsTo e p ∧ Issues P.style p [] xs ∧ log s₂.rows = log s.rows ++ xs) ∧
        ((P.prepare e).run.run s).2.rows = s.rows) ∧
    (Memory.source.Records Memory.exchanges ∧
      ∀ m : Memory, m.exchanges.map Prod.fst = m.executed) ∧
    ∀ (α : Type) (st : Session.Step α) (s : Session α), st.composes →
      s.provider.source = Memory.source →
        ((Session.step st).run.run s).2.state.rows.executed = s.state.rows.executed := by
  refine ⟨?_, ⟨Memory.source_records, Memory.exchanges_commands⟩, ?_⟩
  · intro σ P log hlog e s hs
    refine ⟨?_, Provider.prepare_rows rfl⟩
    intro r s₁ s₂ h hread
    rcases hread with ⟨vs, hvs⟩ | ⟨α, convert, as, hcollect⟩
    · exact Provider.execute_issue hlog hs h (Executor.readsAll_of_next hvs)
    · obtain ⟨vs, hvs⟩ := Executor.readsAll_of_collectWith hcollect le_rfl
      exact Provider.execute_issue hlog hs h hvs
  · intro α st s hst hsource
    cases hrun : (Session.step st).run.run s with
    | mk x s' =>
        have h := Session.ensures_iff.mp (Session.step_silent st hst) s x s' ⟨hsource, rfl⟩ hrun
        cases x with
        | error e => exact h.2
        | ok v => exact h.2

theorem commands_exact_of_itemsByOwner :
    let P : Provider Memory := ⟨Binding.ownership, {}, Memory.source⟩
    let items (owner : String) : String := "SELECT t3.owner, t3.id\nFROM (\n  " ++
      "SELECT t2.owner, t2.id\n  FROM items t2\n) t3\nWHERE t3.owner = " ++ owner
    ∃ p xs, P.BindsTo Binding.itemsByOwner p ∧ Issues P.style p [] xs ∧ xs.map Prod.fst =
      ["SELECT t1.id\nFROM (\n  SELECT t0.id, t0.name\n  FROM owners t0\n) t1", items "7", items "9"] := by
  intro P items
  let m : Memory := { fallback := fun _ => some [[.int32 7, .int32 1], [.int32 9, .int32 2]] }
  obtain ⟨r, s₁, h, vs, s₂, hcollect, hexecuted⟩ : ∃ r s₁,
      (P.execute Binding.itemsByOwner).run.run ⟨m, {}⟩ = (.ok r, s₁) ∧ ∃ vs s₂,
        (P.executor.collect (α := Value) .ok r).run s₁ = (.ok vs, s₂) ∧ s₂.rows.executed =
          ["SELECT t1.id\nFROM (\n  SELECT t0.id, t0.name\n  FROM owners t0\n) t1", items "7",
            items "9"] :=
    ⟨_, _, by cbv, _, _, by cbv, by cbv⟩
  obtain ⟨hgeneral, ⟨hrecords, hcommands⟩, -⟩ := commands_exact
  obtain ⟨p, xs, hp, hissues, hlog⟩ := (hgeneral P Memory.exchanges hrecords Binding.itemsByOwner
    ⟨m, {}⟩ MaterializerCache.isSound_empty).1 r s₁ s₂ h (.inr ⟨Value, .ok, vs, hcollect⟩)
  refine ⟨p, xs, hp, hissues, ?_⟩
  rw [← hexecuted, ← hcommands s₂.rows, hlog]
  rfl

end Quarry
