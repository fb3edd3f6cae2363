import Quarry.Proofs.Starting
import Quarry.Session
/-!
The cache of materializers cannot be seen. Whatever steps a session takes, with the cache and without
it they have the same outcomes and leave the row source in the same state, because every entry of the
cache is the materializer that would be built for any projection with its key.
-/
namespace Quarry

/-! Two runs side by side -/

/-- From related states the two programs return the same and come to related states. -/
def Tracks {σ τ α : Type} (R : σ → τ → Prop) (a : StateM σ α) (b : StateM τ α) : Prop :=
  Relates R a b fun _ => R

namespace Tracks

variable {σ τ α β : Type} {R : σ → τ → Prop}

theorem pure (v : α) : Tracks R (Pure.pure v) (Pure.pure v) := Relates.pure fun _ _ h => h

theorem bind {a : StateM σ α} {b : StateM τ α} {f : α → StateM σ β} {g : α → StateM τ β}
    (h : Tracks R a b) (hf : ∀ v, Tracks R (f v) (g v)) : Tracks R (a >>= f) (b >>= g) :=
  Relates.bind h hf

theorem modifying {f : σ → σ} {g : τ → τ} (h : ∀ s t, R s t → R (f s) (g t)) :
    Tracks R (modify f) (modify g) := Relates.modifying h

end Tracks

/-- The same of programs that may fail. -/
abbrev TracksE {ε σ τ α : Type} (R : σ → τ → Prop) (a : ExceptT ε (StateM σ) α)
    (b : ExceptT ε (StateM τ) α) : Prop := Tracks R a.run b.run

namespace TracksE

variable {ε σ τ α β : Type} {R : σ → τ → Prop}

theorem lift (x : Except ε α) :
    TracksE R (liftM x : ExceptT ε (StateM σ) α) (liftM x : ExceptT ε (StateM τ) α) :=
  Relates.lift fun _ _ h => h

theorem pure (v : α) :
    TracksE R (Pure.pure v : ExceptT ε (StateM σ) α) (Pure.pure v : ExceptT ε (StateM τ) α) :=
  lift (.ok v)

theorem bind {a : ExceptT ε (StateM σ) α} {b : ExceptT ε (StateM τ) α}
    {f : α → ExceptT ε (StateM σ) β} {g : α → ExceptT ε (StateM τ) β} (h : TracksE R a b)
    (hf : ∀ v, TracksE R (f v) (g v)) : TracksE R (a >>= f) (b >>= g) :=
  Relates.andThen h hf fun _ _ _ h => h

theorem modifying {f : σ → σ} {g : τ → τ} (h : ∀ s t, R s t → R (f s) (g t)) :
    TracksE R (modify f : ExceptT ε (StateM σ) PUnit) (modify g : ExceptT ε (StateM τ) PUnit) :=
  (Tracks.modifying h).bind fun _ => .pure _

end TracksE

namespace Executor

variable {σ τ : Type} {R : σ → τ → Prop}

/-- Two executors that start, move and release alike. -/
structure TracksBy (X : Executor σ) (Y : Executor τ) (R : σ → τ → Prop) : Prop where
  start : ∀ p outer, TracksE R (X.start p outer) (Y.start p outer)
  beforeRead : TracksE R X.beforeRead Y.beforeRead
  release : ∀ s t, R s t → R (X.release s) (Y.release t)

variable {X : Executor σ} {Y : Executor τ} {nested : Nested σ} {nested' : Nested τ} {r : Reader}

mutual

theorem run_tracks (h : ∀ q, TracksE R (nested r q) (nested' r q)) : (m : Materializer) →
    TracksE R (m.run (rowAccess nested r)) (m.run (rowAccess nested' r))
  | .column ordinal type => (TracksE.lift (r.field ordinal)).bind fun v => .lift (v.cast type)
  | .outer depth ordinal type =>
    (TracksE.lift (r.outerField depth ordinal)).bind fun v => .lift (v.cast type)
  | .constant v => .pure v
  | .record members => (runMembers_tracks h members).bind fun fields => .pure (Value.record fields)
  | .member target name =>
    (run_tracks h target).bind fun v => .lift (Materializer.takeMember name v)
  | .unary op e => (run_tracks h e).bind fun v => .lift (Value.applyUnary op v)
  | .binary op a b =>
    (run_tracks h a).bind fun v => (run_tracks h b).bind fun w => .lift (Value.applyBinary op v w)
  | .subquery p => h p

theorem runMembers_tracks (h : ∀ q, TracksE R (nested r q) (nested' r q)) :
    (members : List (String × Materializer)) →
      TracksE R (Materializer.runMembers (rowAccess nested r) members)
        (Materializer.runMembers (rowAccess nested' r) members)
  | [] => .pure []
  | (name, m) :: rest =>
    (run_tracks h m).bind fun v =>
      (runMembers_tracks h rest).bind fun fields => .pure ((name, v) :: fields)

end

/-- Nested projections are run alike for every row. -/
def NestedTracks (R : σ → τ → Prop) (nested : Nested σ) (nested' : Nested τ) : Prop :=
  ∀ r q, TracksE R (nested r q) (nested' r q)

theorem nextWith_tracks (hX : X.TracksBy Y R) (hnested : NestedTracks R nested nested')
    (r : Reader) : Tracks R (X.nextWith nested r) (Y.nextWith nested' r) := by
  unfold nextWith
  cases r.cursor with
  | none => exact .pure _
  | some c =>
      have hrow : TracksE R (X.readRow nested r c) (Y.readRow nested' r c) := by
        refine hX.beforeRead.bind fun _ => ?_
        dsimp only
        split
        · exact .pure none
        · exact (run_tracks (hnested _) _).bind fun v => .pure _
      refine Tracks.bind hrow fun x => ?_
      match x with
      | .ok (some (v, r')) => exact .pure _
      | .ok none => exact (Tracks.modifying hX.release).bind fun _ => .pure _
      | .error e => exact (Tracks.modifying hX.release).bind fun _ => .pure _

theorem drop_tracks (hX : X.TracksBy Y R) (r : Reader) : Tracks R (X.drop r) (Y.drop r) := by
  unfold drop
  cases r.isFinished with
  | true => exact .pure _
  | false => exact .modifying hX.release

theorem collectWith_tracks {α : Type} (hX : X.TracksBy Y R)
    (hnested : NestedTracks R nested nested') (convert : Value → Except Error α) (count : Nat)
    (r : Reader) :
    Tracks R (X.collectWith nested convert count r) (Y.collectWith nested' convert count r) := by
  induction count generalizing r with
  | zero => exact (drop_tracks hX r).bind fun _ => .pure _
  | succ count ih =>
      rw [collectWith, collectWith]
      refine (nextWith_tracks hX hnested r).bind ?_
      rintro ⟨item, r'⟩
      cases item with
      | none => exact .pure _
      | some item =>
          dsimp only
          split
          · exact (drop_tracks hX r').bind fun _ => .pure _
          · exact (ih r').bind fun _ => .pure _

/-- However deep projections are nested, they are run alike. -/
theorem nestedTo_tracks (hX : X.TracksBy Y R) (depth : Nat) :
    NestedTracks R (X.nestedTo depth) (Y.nestedTo depth) := by
  induction depth with
  | zero => exact fun r q => .lift (.error Error.nestedTooDeep)
  | succ depth ih =>
      intro r q
      rw [nestedTo, nestedTo]
      refine (TracksE.lift (r.specialize q.source)).bind fun source => ?_
      refine (TracksE.lift r.snapshot).bind fun row => ?_
      refine (hX.start _ _).bind fun inner => ?_
      refine TracksE.bind (collectWith_tracks hX ih _ _ inner) fun values => ?_
      exact .pure _

end Executor

namespace Provider

variable {σ : Type} {b b' : Bool}

/-- The provider with its cache turned on or off. -/
def withCache (P : Provider σ) (on : Bool) : Provider σ :=
  { P with settings := { P.settings with cacheMaterializers := on } }

theorem withCache_source (P : Provider σ) (on : Bool) : (P.withCache on).source = P.source := rfl

/-- The row source stands alike, and nothing in a cache can be seen. -/
structure SameRows (s t : ProviderState σ) : Prop where
  rows : s.rows = t.rows
  left : IsSound s
  right : IsSound t

variable (P : Provider σ)

theorem onSource_tracks {α : Type} (a : Action σ α) :
    TracksE SameRows (onSource a) (onSource a) := by
  rintro ⟨rows, cache⟩ ⟨rows', cache'⟩ ⟨hrows, hs, ht⟩
  cases hrows
  exact ⟨rfl, rfl, hs, ht⟩

theorem materializer_tracks (p : Projection Expr) :
    TracksE SameRows ((P.withCache b).materializer p) ((P.withCache b').materializer p) := by
  intro s t h
  have hs := compile_of_isSound (P := P.withCache b) (p := p) h.left
  have ht := compile_of_isSound (P := P.withCache b') (p := p) h.right
  -- Both compile to what is built for the projection: they fail alike or have the same materializer.
  rw [← ht] at hs
  rw [materializer_run, materializer_run]
  cases hm : (P.withCache b).compile s.cache p with
  | error e =>
      cases hm' : (P.withCache b').compile t.cache p with
      | error e' =>
          rw [hm, hm'] at hs
          cases hs
          exact ⟨rfl, h⟩
      | ok y =>
          rw [hm, hm'] at hs
          cases hs
  | ok x =>
      cases hm' : (P.withCache b').compile t.cache p with
      | error e' =>
          rw [hm, hm'] at hs
          cases hs
      | ok y =>
          obtain ⟨m, cache⟩ := x
          obtain ⟨m', cache'⟩ := y
          rw [hm, hm'] at hs
          cases hs
          exact ⟨rfl, h.rows, (IsSound.compile h.left hm).2, (IsSound.compile h.right hm').2⟩

theorem plan_tracks (p : Projection Expr) :
    TracksE SameRows ((P.withCache b).plan p) ((P.withCache b').plan p) := by
  refine (TracksE.lift (Sql.format P.style (.select p.source))).bind fun sql => ?_
  exact (materializer_tracks P p).bind fun m => .pure _

theorem prepare_tracks (e : Expr) :
    TracksE SameRows ((P.withCache b).prepare e) ((P.withCache b').prepare e) := by
  refine (TracksE.lift e.foldLocal).bind fun e => ?_
  refine (TracksE.lift (Binding.bind P.catalog P.settings.identifierCase e)).bind fun p => ?_
  exact plan_tracks P p

theorem send_tracks (sql : String) :
    TracksE SameRows ((P.withCache b).send sql) ((P.withCache b').send sql) := by
  intro s t h
  rw [send_run, send_run, withCache_source, withCache_source, ← h.rows]
  cases (P.source.execute sql).run.run s.rows with
  | mk x rows =>
      cases x with
      | error e => exact ⟨rfl, rfl, h.left, h.right⟩
      | ok answer => exact ⟨rfl, rfl, h.left, h.right⟩

theorem start_tracks (plan : Plan) (outer : List Row) :
    TracksE SameRows ((P.withCache b).start plan outer) ((P.withCache b').start plan outer) :=
  (send_tracks P plan.sql).bind fun _ => .pure _

theorem execute_tracks (e : Expr) :
    TracksE SameRows ((P.withCache b).execute e) ((P.withCache b').execute e) :=
  (prepare_tracks P e).bind fun plan => start_tracks P plan []

theorem release_tracks {s t : ProviderState σ} (h : SameRows s t) :
    SameRows ((P.withCache b).executor.release s) ((P.withCache b').executor.release t) := by
  refine ⟨?_, h.left, h.right⟩
  show P.source.close s.rows = P.source.close t.rows
  rw [h.rows]

theorem executor_tracks (b b' : Bool) :
    (P.withCache b).executor.TracksBy (P.withCache b').executor SameRows where
  start p outer := (plan_tracks P p).bind fun plan => start_tracks P plan outer
  beforeRead := onSource_tracks P.source.beforeRead
  release _ _ h := release_tracks P h

/-- Whether there is a cache or not, what is read of a bound query from a row source that answers the
text of a select with its rows are the values of the query. -/
theorem values_of_read {db : Database} {find : Finder} {G : Nat → Signature} {n : Nat}
    {p : Projection Expr} {vs : List Value} {s s' : ProviderState σ}
    (hsource : P.source.Answers db find P.style) (hdb : db.IsTyped) (hfind : find.Suits db.catalog)
    (hp : Placed db find G n [] p) (hs : IsSound s)
    (h : (P.executor.read p).run.run s = (.ok vs, s')) : db.values find [] p = .ok vs := by
  have hX := executor_tracks P P.settings.cacheMaterializers false
  have htracks : TracksE SameRows (P.executor.read p) ((P.withCache false).executor.read p) :=
    (hX.start p []).bind fun r =>
      Executor.collectWith_tracks hX (Executor.nestedTo_tracks hX _) _ _ r
  have hanswers : (P.withCache false).executor.Answers db find (P.withCache false).settings :=
    executor_answers rfl hsource
  obtain ⟨hresult, -⟩ := htracks s s ⟨rfl, hs, hs⟩
  rw [h] at hresult
  have hreturns : Returns ((P.withCache false).executor.read p) vs :=
    ⟨s, (((P.withCache false).executor.read p).run.run s).2, Prod.ext hresult.symm rfl⟩
  exact Executor.values_of_read hanswers hdb hfind hp hreturns

theorem command_tracks (sql : String) :
    TracksE SameRows ((P.withCache b).command sql) ((P.withCache b').command sql) :=
  (send_tracks P sql).bind fun _ => .modifying fun _ _ h => release_tracks P h

end Provider

namespace Session

variable {α β : Type} {P : Provider Memory} {b b' : Bool}

/-- Two sessions of one provider, each with or without the cache. -/
structure Alike (P : Provider Memory) (b b' : Bool) (s t : Session α) : Prop where
  left : s.provider = P.withCache b
  right : t.provider = P.withCache b'
  state : Provider.SameRows s.state t.state
  handles : s.handles = t.handles

/-- A part of a step for which it does not matter whether there is a cache. -/
abbrev Unaware (P : Provider Memory) (b b' : Bool) (a : SessionM α β) : Prop :=
  TracksE (Alike P b b') a a

theorem ofExcept_unaware (x : Except Error β) : Unaware P b b' (ofExcept x : SessionM α β) := by
  cases x with
  | error e => exact .lift (.error (Failure.error e))
  | ok v => exact .pure v

theorem onProvider_unaware {f : Provider Memory → StateM (ProviderState Memory) β}
    (h : Tracks Provider.SameRows (f (P.withCache b)) (f (P.withCache b'))) :
    Unaware P b b' (onProvider f : SessionM α β) := by
  rintro ⟨provider, state, handles⟩ ⟨provider', state', handles'⟩
  rintro ⟨hleft, hright, hstate, hhandles⟩
  cases hleft
  cases hright
  obtain ⟨hresult, hstate⟩ := h state state' hstate
  exact ⟨congrArg Except.ok hresult, rfl, rfl, hstate, hhandles⟩

theorem act_unaware {f : Provider Memory → Action (ProviderState Memory) β}
    (h : TracksE Provider.SameRows (f (P.withCache b)) (f (P.withCache b'))) :
    Unaware P b b' (act f : SessionM α β) :=
  (onProvider_unaware h).bind ofExcept_unaware

theorem find_unaware (name : String) : Unaware P b b' (find name : SessionM α (Handle α)) := by
  intro s t hst
  rw [find_run, find_run, hst.handles]
  cases t.handles.lookup name with
  | none => exact ⟨rfl, hst⟩
  | some h => exact ⟨rfl, hst⟩

theorem findQuery_unaware (name : String) :
    Unaware P b b' (findQuery name : SessionM α Expr) := by
  refine (find_unaware name).bind fun h => ?_
  cases h with
  | query e => exact .pure e
  | _ => exact .lift (.error Failure.noHandle)

theorem findReader_unaware (name : String) :
    Unaware P b b' (findReader name : SessionM α Reader) := by
  refine (find_unaware name).bind fun h => ?_
  cases h with
  | reader r => exact .pure r
  | _ => exact .lift (.error Failure.noHandle)

theorem findCursor_unaware (name : String) :
    Unaware P b b' (findCursor name : SessionM α Cursor) := by
  refine (find_unaware name).bind fun h => ?_
  cases h with
  | cursor c => exact .pure c
  | _ => exact .lift (.error Failure.noHandle)

theorem releaseHandle_unaware (h : Handle α) :
    Unaware P b b' (onProvider (releaseHandle · h) : SessionM α Unit) := by
  apply onProvider_unaware
  have hX := Provider.executor_tracks P b b'
  match h with
  | .query _ | .results none _ => exact .pure _
  | .results (some r) _ | .iterator r _ | .reader r => exact Executor.drop_tracks hX r
  | .cursor _ => exact .modifying hX.release

theorem remove_unaware (name : String) : Unaware P b b' (remove name : SessionM α Unit) := by
  refine .modifying fun s t h => ⟨h.left, h.right, h.state, ?_⟩
  show s.handles.filter _ = t.handles.filter _
  rw [h.handles]

theorem replace_unaware (name : String) (h : Handle α) : Unaware P b b' (replace name h) := by
  refine (remove_unaware name).bind fun _ => ?_
  refine .modifying fun s t h => ⟨h.left, h.right, h.state, ?_⟩
  rw [h.handles]

theorem keep_unaware (name : String) (h : Handle α) : Unaware P b b' (keep name h) := by
  intro s t hst
  rw [keep_run, keep_run, hst.handles]
  cases t.handles.lookup name with
  | none => exact replace_unaware name h s t hst
  | some old => exact (releaseHandle_unaware old).bind (fun _ => replace_unaware name h) s t hst

theorem keepQuery_unaware (name : String) (e : Expr) :
    Unaware P b b' (keepQuery name e : SessionM α (Answer α)) :=
  (keep_unaware name _).bind fun _ => .pure _

theorem next_unaware (r : Reader) :
    Unaware P b b' (onProvider (·.executor.next r) :
      SessionM α (Option (Except Error Value) × Reader)) := by
  have hX := Provider.executor_tracks P b b'
  exact onProvider_unaware (Executor.nextWith_tracks hX (Executor.nestedTo_tracks hX _) r)

theorem stepNext_unaware (name : String) : Unaware P b b' (stepNext name : SessionM α _) := by
  refine (find_unaware name).bind fun h => ?_
  cases h with
  | iterator r convert =>
      refine (next_unaware r).bind fun x => ?_
      obtain ⟨item, r'⟩ := x
      refine (replace_unaware name _).bind fun _ => ?_
      cases item with
      | none => exact .pure _
      | some item => exact (ofExcept_unaware _).bind fun _ => .pure _
  | _ => exact .lift (.error Failure.noHandle)

theorem stepEnumerate_unaware (results name : String) :
    Unaware P b b' (stepEnumerate results name : SessionM α _) := by
  refine (find_unaware results).bind fun h => ?_
  cases h with
  | results reader convert =>
      cases reader with
      | none => exact .lift (.error (Failure.error .enumeratedTwice))
      | some r =>
          refine (replace_unaware results _).bind fun _ => ?_
          exact (keep_unaware name _).bind fun _ => .pure _
  | _ => exact .lift (.error Failure.noHandle)

theorem stepRow_unaware (name : String) : Unaware P b b' (stepRow name : SessionM α _) := by
  refine (findReader_unaware name).bind fun r => ?_
  refine (next_unaware r).bind fun x => ?_
  obtain ⟨item, r'⟩ := x
  refine (replace_unaware name _).bind fun _ => ?_
  cases item with
  | none => exact .pure _
  | some item => exact (ofExcept_unaware _).bind fun _ => .pure _

theorem stepRead_unaware (name : String) : Unaware P b b' (stepRead name : SessionM α _) :=
  (findCursor_unaware name).bind fun _ => (replace_unaware name _).bind fun _ => .pure _

/-- Every step but the one that shows the settings is taken alike with the cache and without. -/
theorem step_unaware (st : Step α) (hst : st ≠ .settings) : Unaware P b b' (step st) := by
  have hX := Provider.executor_tracks P b b'
  cases st with
  | prepare e => exact (act_unaware (Provider.prepare_tracks P e)).bind fun _ => .pure _
  | query name e => exact keepQuery_unaware name e
  | filter source name e | select source name e | existence source name e | absence source name e =>
      exact (findQuery_unaware source).bind fun q => keepQuery_unaware name _
  | join outer inner name outerKey innerKey result =>
      refine (findQuery_unaware outer).bind fun o => ?_
      exact (findQuery_unaware inner).bind fun i => keepQuery_unaware name _
  | toList source name => exact (findQuery_unaware source).bind fun q => keepQuery_unaware name _
  | sql query =>
      refine (findQuery_unaware query).bind fun e => ?_
      exact (act_unaware (Provider.prepare_tracks P e)).bind fun _ => .pure _
  | collect query convert =>
      refine (findQuery_unaware query).bind fun e => ?_
      refine (act_unaware (Provider.execute_tracks P e)).bind fun r => ?_
      refine (onProvider_unaware (?_ : Tracks _ _ _)).bind fun items => ?_
      · exact Executor.collectWith_tracks hX (Executor.nestedTo_tracks hX _) convert _ r
      exact (ofExcept_unaware items).bind fun _ => .pure _
  | execute query name convert =>
      refine (findQuery_unaware query).bind fun e => ?_
      refine (act_unaware (Provider.execute_tracks P e)).bind fun r => ?_
      exact (keep_unaware name _).bind fun _ => .pure _
  | enumerate results name => exact stepEnumerate_unaware results name
  | next iterator => exact stepNext_unaware iterator
  | run name e =>
      refine (act_unaware (Provider.execute_tracks P e)).bind fun r => ?_
      exact (keep_unaware name _).bind fun _ => .pure _
  | runProjection name p =>
      refine (act_unaware (hX.start p [])).bind fun r => ?_
      exact (keep_unaware name _).bind fun _ => .pure _
  | row reader => exact stepRow_unaware reader
  | isFinished reader => exact (findReader_unaware reader).bind fun _ => .pure _
  | field reader ordinal | outerField reader depth ordinal =>
      refine (findReader_unaware reader).bind fun r => ?_
      exact (ofExcept_unaware _).bind fun _ => .pure _
  | subquery reader p =>
      refine (findReader_unaware reader).bind fun r => ?_
      exact (act_unaware (Executor.nestedTo_tracks hX _ r p)).bind fun _ => .pure _
  | openCursor name command =>
      refine (act_unaware (Provider.onSource_tracks (Memory.execute command))).bind fun rows => ?_
      exact (keep_unaware name _).bind fun _ => .pure _
  | read cursor => exact stepRead_unaware cursor
  | fieldCount cursor => exact (findCursor_unaware cursor).bind fun _ => .pure _
  | isNull cursor ordinal | cursorField cursor ordinal =>
      refine (findCursor_unaware cursor).bind fun c => ?_
      exact (ofExcept_unaware _).bind fun _ => .pure _
  | respond command rows =>
      have hrespond : Tracks Provider.SameRows
          (modify fun s : ProviderState Memory => { s with rows := s.rows.respond command rows })
          (modify fun s => { s with rows := s.rows.respond command rows }) := by
        refine .modifying fun s t h => ⟨?_, h.left, h.right⟩
        rw [h.rows]
      exact (onProvider_unaware hrespond).bind fun _ => .pure _
  | clearCache =>
      -- Both sides say that the cache is empty now, whatever was in it.
      intro s t h
      refine ⟨rfl, h.left, h.right, ⟨h.state.rows, ?_, ?_⟩, h.handles⟩
      · exact List.forall_mem_nil _
      · exact List.forall_mem_nil _
  | settings => exact absurd rfl hst
  | tableName entity =>
      intro s t h
      have hcatalog : s.provider.catalog = t.provider.catalog := by
        rw [h.left, h.right]
        rfl
      let name (c : Catalog) : SessionM α (Answer α) := do
        return .text (← ofExcept (c.table entity)).name
      show ((name s.provider.catalog).run.run s).1 = ((name t.provider.catalog).run.run t).1 ∧
        Alike P b b' ((name s.provider.catalog).run.run s).2 ((name t.provider.catalog).run.run t).2
      rw [hcatalog]
      exact ((ofExcept_unaware _).bind fun _ => .pure _) s t h
  | clear entity =>
      refine (act_unaware ?_).bind fun _ => .pure _
      exact (TracksE.lift (P.catalog.table entity)).bind fun t => Provider.command_tracks P _
  | delete entity predicate =>
      refine (act_unaware ?_).bind fun _ => .pure _
      refine (TracksE.lift (P.catalog.table entity)).bind fun t => ?_
      refine (TracksE.lift (Sql.deleteText P.style t predicate)).bind fun sql => ?_
      exact Provider.command_tracks P sql
  | update entity assignments predicate =>
      refine (act_unaware ?_).bind fun _ => .pure _
      refine (TracksE.lift (P.catalog.table entity)).bind fun t => ?_
      refine (TracksE.lift (Sql.updateText P.style t assignments predicate)).bind fun sql => ?_
      exact Provider.command_tracks P sql
  | drop name =>
      refine (find_unaware name).bind fun h => ?_
      exact (releaseHandle_unaware h).bind fun _ => (remove_unaware name).bind fun _ => .pure _

theorem run_alike (steps : List (Step α)) (hsteps : ∀ st ∈ steps, st ≠ .settings) {s t : Session α}
    (h : Alike P b b' s t) :
    List.Forall₂ (fun x y => x.1 = y.1 ∧ Alike P b b' x.2 y.2) (run steps s) (run steps t) := by
  induction steps generalizing s t with
  | nil => exact .nil
  | cons st rest ih =>
      have hstep := step_unaware st (hsteps st List.mem_cons_self) s t h
      refine List.Forall₂.cons ⟨hstep.1, hstep.2⟩ (ih ?_ hstep.2)
      intro st' hst'
      exact hsteps st' (List.mem_cons_of_mem _ hst')

/-- The cache makes no difference. Whatever steps a session takes, short of showing its settings, with
the cache and without it every step has the same outcome, and after it the row source stands alike,
with the same commands executed and the same cursors open. All the while each entry builds from any
row what a materializer built for its key would, and nothing but the label of the rows and the
projector decides what the cache gives. -/
theorem cache_transparent (P : Provider Memory) (m : Memory) (steps : List (Step α))
    (hsteps : ∀ st ∈ steps, st ≠ .settings) :
    let cached : Session α := { provider := P.withCache true, state := { rows := m } }
    let uncached : Session α := { provider := P.withCache false, state := { rows := m } }
    List.Forall₂ (fun x y => x.1 = y.1 ∧ x.2.state.rows = y.2.state.rows)
        (run steps cached) (run steps uncached) ∧
      (∀ x ∈ run steps cached, ∀ entry ∈ x.2.state.cache.entries, ∀ p : Projection Expr,
        (p.source.label, p.projector) = entry.1 → ∃ built, Materializer.build p = .ok built ∧
          ∀ (σ : Type) (row : RowAccess σ), entry.2.materializer.run row = built.run row) ∧
      ∀ (c : MaterializerCache) (p q : Projection Expr), p.source.label = q.source.label →
        p.projector = q.projector → c.getOrBuild p = c.getOrBuild q := by
  intro cached uncached
  have hfresh : Alike P true false cached uncached :=
    ⟨rfl, rfl, ⟨rfl, MaterializerCache.isSound_empty, MaterializerCache.isSound_empty⟩, rfl⟩
  have hrun := (run_alike steps hsteps hfresh).imp fun x y h =>
    And.intro h.2.state.left (And.intro h.1 h.2.state.rows)
  obtain ⟨hsound, hsame⟩ := (List.forall₂_and_left _ _).mp hrun
  refine ⟨hsame, ?_, ?_⟩
  · intro x hx entry hentry p hp
    have hbuild := hsound x hx entry hentry
    rw [← hp] at hbuild
    exact ⟨_, hbuild, fun σ row => rfl⟩
  · intro c p q hlabel hprojector
    simp only [MaterializerCache.getOrBuild, MaterializerCache.build, Materializer.build,
      MaterializerCache.keyOf, hlabel, hprojector]

/-- The items of owners are read around a command and a clearing of the cache. -/
theorem cache_transparent_of_itemsByOwner :
    let P : Provider Memory := ⟨Binding.ownership, {}, Memory.source⟩
    let m : Memory := { fallback := fun _ => some [[.int32 7, .int32 1], [.int32 9, .int32 2]] }
    let steps : List (Step Value) := [.run "owners" Binding.itemsByOwner, .row "owners",
      .clear "Item", .clearCache, .row "owners"]
    let cached : Session Value := { provider := P.withCache true, state := { rows := m } }
    let uncached : Session Value := { provider := P.withCache false, state := { rows := m } }
    (run steps cached).map (·.2.state.cache.size) = [1, 2, 2, 0, 1] ∧
      List.Forall₂ (fun x y => x.1 = y.1 ∧ x.2.state.rows = y.2.state.rows)
        (run steps cached) (run steps uncached) := by
  intro P m steps cached uncached
  have hsteps : ∀ st ∈ steps, st ≠ .settings := by simp [steps]
  exact ⟨by cbv, (cache_transparent P m steps hsteps).1⟩

end Session

end Quarry
