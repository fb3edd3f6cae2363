import Quarry.Proofs.Starting
import Quarry.Session
/-!
Open cursors are accounted for. A session over rows in memory has a cursor open for each of its
handles that holds one, and for no other: what a nested projection opens is closed again before the
step is over, whatever happens in it.
-/
namespace Quarry

/-! Ended readers -/

namespace Executor

variable {σ : Type} {X : Executor σ} {nested : Nested σ} {r r' : Reader} {c : Cursor} {s s' : σ}

/-- Where a reader with cursor `c` ends: the read fails, no row is left, or the value of the next row
cannot be built. -/
inductive Ends (X : Executor σ) (nested : Nested σ) (r : Reader) (c : Cursor) (s : σ) : Prop
  | unread {e s₁} (hread : X.beforeRead.run.run s = (.error e, s₁))
  | exhausted (hrest : c.rest = [])
  | unbuilt {row rest e s₁ s₂} (hread : X.beforeRead.run.run s = (.ok (), s₁))
      (hrest : c.rest = row :: rest)
      (hrun : (r.materializer.run (rowAccess nested (onRow r c row rest))).run.run s₁ =
        (.error e, s₂))

theorem nextWith_ends {item : Option (Except Error Value)} (hr : r.cursor = some c)
    (h : (X.nextWith nested r).run s = ((item, r'), s')) :
    r'.isFinished ↔ X.Ends nested r c s := by
  cases nextWith_advances hr h with
  | unread hread => exact ⟨fun _ => .unread hread, fun _ => rfl⟩
  | ended hread hrest => exact ⟨fun _ => .exhausted hrest, fun _ => rfl⟩
  | unbuilt hread hrest hrun => exact ⟨fun _ => .unbuilt hread hrest hrun, fun _ => rfl⟩
  | built hread hrest hrun =>
      constructor
      · intro hfinished
        cases hfinished
      · intro hends
        cases hends with
        | unread hread' =>
            rw [hread] at hread'
            cases hread'
        | exhausted hrest' =>
            rw [hrest] at hrest'
            cases hrest'
        | unbuilt hread' hrest' hrun' =>
            rw [hread] at hread'
            cases hread'
            rw [hrest] at hrest'
            cases hrest'
            rw [hrun] at hrun'
            cases hrun'

end Executor

/-! Providers over memory -/

namespace Memory

theorem openCursors_of_execute {command : String} {m m' : Memory} {x : Except Error (List Row)}
    (h : (execute command).run.run m = (x, m')) :
    Yields (fun _ => m'.openCursors = m.openCursors) x fun _ =>
      m'.openCursors = m.openCursors + 1 := by
  rw [execute_run] at h
  dsimp only at h
  split at h
  · cases h
    rfl
  · cases h
    rfl

end Memory

namespace Provider

variable {P : Provider Memory} {p : Projection Expr} {s s' : ProviderState Memory} {e : Expr}
variable {r r' : Reader}

/-- A query that is started has one cursor open; one that fails to start has none. -/
theorem Starts.cursors {outer : List Row} {x : Except Error Reader} (hP : P.source = Memory.source)
    (h : Starts P p outer s x s') :
    Yields (fun _ => s'.rows.openCursors = s.rows.openCursors) x fun r =>
      s'.rows.openCursors = s.rows.openCursors + r.held ∧ r.held = 1 := by
  cases h with
  | unplanned => rfl
  | unanswered hsql hm hanswer =>
      rw [hP] at hanswer
      exact Memory.openCursors_of_execute hanswer
  | answered hsql hm hanswer =>
      rw [hP] at hanswer
      exact ⟨Memory.openCursors_of_execute hanswer, rfl⟩

/-- The cursors that are open follow those that are held. -/
theorem executor_cursors (hP : P.source = Memory.source) (base : Nat) :
    P.executor.Keeps (fun _ => True) fun k s => s.rows.openCursors = base + k where
  start := by
    intro q _ source outer _ k s x s' hs h
    have hstart := (executeProjection_starts h).cursors hP
    cases x with
    | error e => exact hstart.trans hs
    | ok inner =>
        obtain ⟨hopen, hheld⟩ := hstart
        refine ⟨?_, hheld, fun _ _ => trivial⟩
        show s'.rows.openCursors = base + (k + 1)
        omega
  beforeRead := by
    intro k s x s' hs h
    obtain ⟨hread, -⟩ := onSource_cases h
    rw [hP] at hread
    replace hread : Memory.beforeRead.run.run s.rows = (x, s'.rows) := hread
    rw [Memory.beforeRead_run] at hread
    have hrows : { s.rows with reads := s.rows.reads + 1 } = s'.rows := congrArg Prod.snd hread
    rw [← hrows]
    exact hs
  release := by
    intro k s hs
    show (P.source.close s.rows).openCursors = base + k
    rw [hP]
    show s.rows.openCursors - 1 = base + k
    omega

theorem execute_cursors {x : Except Error Reader} (hP : P.source = Memory.source)
    (h : (P.execute e).run.run s = (x, s')) :
    Yields (fun _ => s'.rows.openCursors = s.rows.openCursors) x fun r =>
      s'.rows.openCursors = s.rows.openCursors + r.held := by
  rcases execute_cases h with ⟨err, rfl, rfl⟩ | ⟨p, -, hstart⟩
  · rfl
  · have hcursors := hstart.cursors hP
    cases x with
    | error err => exact hcursors
    | ok r => exact hcursors.1

/-- Reading on changes the number of open cursors only by the reader's own. -/
theorem next_cursors {item : Option (Except Error Value)} (hP : P.source = Memory.source)
    (hr : r.held ≤ s.rows.openCursors) (h : (P.executor.next r).run s = ((item, r'), s')) :
    s'.rows.openCursors + r.held = s.rows.openCursors + r'.held := by
  have hX := executor_cursors hP (s.rows.openCursors - r.held)
  have hopen := Executor.next_keeps (k := 0) hX (fun _ _ => trivial) h (by omega)
  omega

theorem collect_cursors {α : Type} {convert : Value → Except Error α} {x : Except Error (List α)}
    (hP : P.source = Memory.source) (hr : r.held ≤ s.rows.openCursors)
    (h : (P.executor.collect convert r).run s = (x, s')) :
    s'.rows.openCursors + r.held = s.rows.openCursors := by
  have hX := executor_cursors hP (s.rows.openCursors - r.held)
  have hopen := Executor.collect_keeps (k := 0) hX (fun _ _ => trivial) h (by omega)
  omega

theorem drop_cursors (hP : P.source = Memory.source) (hr : r.held ≤ s.rows.openCursors) :
    ((P.executor.drop r).run s).2.rows.openCursors + r.held = s.rows.openCursors := by
  have hX := executor_cursors hP (s.rows.openCursors - r.held)
  have hopen := Executor.drop_keeps (k := 0) (s := s) hX r (by omega)
  omega

/-- Leaves as many cursors open as there were, whether it succeeds or fails. -/
def Tidy {α : Type} (a : Action (ProviderState Memory) α) : Prop :=
  ∀ s x s', a.run.run s = (x, s') → s'.rows.openCursors = s.rows.openCursors

theorem Tidy.after {α β : Type} {f : α → Action (ProviderState Memory) β} (y : Except Error α)
    (hf : ∀ v, Tidy (f v)) : Tidy (liftM y >>= f) := by
  intro s x s' h
  rcases run_bind_cases h with ⟨e, hlift, rfl⟩ | ⟨v, s₁, hlift, hrest⟩
  · obtain ⟨-, rfl⟩ := run_lift_eq hlift
    rfl
  · obtain ⟨-, rfl⟩ := run_lift_eq hlift
    exact hf v _ x s' hrest

theorem prepare_tidy (e : Expr) : Tidy (P.prepare e) := by
  intro s x s' h
  rw [prepare_rows h]

theorem subquery_tidy (hP : P.source = Memory.source) (r : Reader) (p : Projection Expr) :
    Tidy (P.executor.subquery r p) := by
  intro s x s' h
  have hX := executor_cursors hP s.rows.openCursors
  exact Executor.nestedTo_keeps hX _ r p trivial 0 s x s' h rfl

/-- The cursor of a command is closed at once. -/
theorem command_tidy (hP : P.source = Memory.source) (sql : String) : Tidy (P.command sql) := by
  intro s x s' h
  have hsend {y : Except Error (List Row)} {s₁} (hsend : (P.send sql).run.run s = (y, s₁)) :
      Yields (fun _ => s₁.rows.openCursors = s.rows.openCursors) y fun _ =>
        s₁.rows.openCursors = s.rows.openCursors + 1 := by
    rw [send_run, hP] at hsend
    split at hsend
    next answer rows hanswer =>
      cases hsend
      exact Memory.openCursors_of_execute hanswer
    next e rows hanswer =>
      have hopen : rows.openCursors = s.rows.openCursors := Memory.openCursors_of_execute hanswer
      cases hsend
      exact hopen
  rcases run_bind_cases h with ⟨e, hrun, rfl⟩ | ⟨rows, s₁, hrun, hrelease⟩
  · exact hsend hrun
  · have hopen : s₁.rows.openCursors = s.rows.openCursors + 1 := hsend hrun
    cases hrelease
    exact (executor_cursors hP s.rows.openCursors).release 0 s₁ hopen

end Provider

/-! Sessions -/

namespace Handle

variable {α : Type}

/-- Whether a handle holds a cursor open: that of a reader that has not ended, or one of its own. -/
def isOpen : Handle α → Bool
  | .query _ | .results none _ => false
  | .results (some r) _ | .iterator r _ | .reader r => !r.isFinished
  | .cursor _ => true

/-- The number of cursors that a handle holds open. -/
def held (h : Handle α) : Nat := if h.isOpen then 1 else 0

theorem held_of_isOpen {h : Handle α} {r : Reader} (hr : h.isOpen = !r.isFinished) :
    h.held = r.held := by
  unfold held Reader.held
  rw [hr]
  cases r.isFinished with
  | true => rfl
  | false => rfl

end Handle

namespace Session

variable {α β γ : Type} {fail pre : Session α → Prop}

/-- What holds after a part of a step, and after its failure. -/
abbrev Ensures (fail pre : Session α → Prop) (a : SessionM α β) (post : β → Session α → Prop) : Prop :=
  Establishes pre a.run fun x s => Yields (fun _ => fail s) x fun v => post v s

theorem ensures_iff {a : SessionM α β} {post : β → Session α → Prop} : Ensures fail pre a post ↔
    ∀ s x s', pre s → a.run.run s = (x, s') → Yields (fun _ => fail s') x fun v => post v s' :=
  establishes_iff

namespace Ensures

theorem pure {post : β → Session α → Prop} {v : β} (h : ∀ s, pre s → post v s) :
    Ensures fail pre (Pure.pure v) post := Relates.pure fun s _ hst => ⟨hst.1, h s hst.2⟩

theorem throw {post : β → Session α → Prop} {e : Failure} (h : ∀ s, pre s → fail s) :
    Ensures fail pre (MonadExcept.throw e) post := Relates.pure fun s _ hst => ⟨hst.1, h s hst.2⟩

theorem bind {mid : β → Session α → Prop} {post : γ → Session α → Prop} {a : SessionM α β}
    {f : β → SessionM α γ} (ha : Ensures fail pre a mid) (hf : ∀ v, Ensures fail (mid v) (f v) post) :
    Ensures fail pre (a >>= f) post := Relates.andThen ha hf fun _ _ _ hst => hst

theorem weaken {pre' : Session α → Prop} {post : β → Session α → Prop} {a : SessionM α β}
    (ha : Ensures fail pre a post) (h : ∀ s, pre' s → pre s) : Ensures fail pre' a post :=
  fun s t hst => ha s t ⟨hst.1, h s hst.2⟩

/-- A pure part changes nothing. -/
theorem ofExcept {x : Except Error β} (h : ∀ s, pre s → fail s) :
    Ensures fail pre (Session.ofExcept x) fun _ => pre := by
  cases x with
  | error e => exact throw h
  | ok v => exact pure fun _ hs => hs

theorem onProvider {post : β → Session α → Prop}
    {f : Provider Memory → StateM (ProviderState Memory) β}
    (h : ∀ s v state, pre s → (f s.provider).run s.state = (v, state) → post v { s with state }) :
    Ensures fail pre (Session.onProvider f) post := by
  refine ensures_iff.mpr fun s x s' hs hrun => ?_
  cases hrun
  exact h s _ _ hs rfl

theorem act {post : β → Session α → Prop}
    {f : Provider Memory → Action (ProviderState Memory) β}
    (h : ∀ s x state, pre s → (f s.provider).run.run s.state = (x, state) →
      Yields (fun _ => fail { s with state }) x fun v => post v { s with state }) :
    Ensures fail pre (Session.act f) post := by
  refine ensures_iff.mpr fun s x s' hs hrun => ?_
  cases hf : (f s.provider).run.run s.state with
  | mk y state =>
      have hpost := h s y state hs hf
      replace hrun : (Session.ofExcept y : SessionM α β).run.run { s with state } = (x, s') := by
        rw [← hrun, show y = ((f s.provider).run.run s.state).1 by rw [hf],
          show state = ((f s.provider).run.run s.state).2 by rw [hf]]
        rfl
      cases y with
      | error e =>
          cases hrun
          exact hpost
      | ok v =>
          cases hrun
          exact hpost

theorem find (name : String) (h : ∀ s, pre s → fail s) :
    Ensures fail pre (Session.find name) fun handle s =>
      pre s ∧ s.handles.lookup name = some handle := by
  refine ensures_iff.mpr fun s x s' hs hrun => ?_
  rw [find_run] at hrun
  split at hrun
  next handle hlookup =>
    cases hrun
    exact ⟨hs, hlookup⟩
  next =>
    cases hrun
    exact h s hs

theorem findQuery (name : String) (h : ∀ s, pre s → fail s) :
    Ensures fail pre (Session.findQuery name) fun _ => pre := by
  refine (find name h).bind fun handle => ?_
  cases handle with
  | query e => exact pure fun s hs => hs.1
  | _ => exact throw fun s hs => h s hs.1

theorem findReader (name : String) (h : ∀ s, pre s → fail s) :
    Ensures fail pre (Session.findReader name) fun r s =>
      pre s ∧ s.handles.lookup name = some (.reader r) := by
  refine (find name h).bind fun handle => ?_
  cases handle with
  | reader r => exact pure fun s hs => hs
  | _ => exact throw fun s hs => h s hs.1

theorem findCursor (name : String) (h : ∀ s, pre s → fail s) :
    Ensures fail pre (Session.findCursor name) fun c s =>
      pre s ∧ s.handles.lookup name = some (.cursor c) := by
  refine (find name h).bind fun handle => ?_
  cases handle with
  | cursor c => exact pure fun s hs => hs
  | _ => exact throw fun s hs => h s hs.1

end Ensures

/-- The handles that hold a cursor open. -/
def openHandles (s : Session α) : Nat := s.handles.countP fun x => x.2.isOpen

/-- There are `k` cursors open more than there are handles that hold one. -/
structure Balanced (k : Int) (s : Session α) : Prop where
  source : s.provider.source = Memory.source
  names : (s.handles.map Prod.fst).Nodup
  cursors : (s.state.rows.openCursors : Int) = s.openHandles + k

/-- Without the handle of a name there are as many fewer that hold a cursor as that one holds. -/
theorem countP_without (name : String) {handles : List (String × Handle α)}
    (hnames : (handles.map Prod.fst).Nodup) :
    handles.countP (fun x => x.2.isOpen) =
      (handles.filter (·.1 ≠ name)).countP (fun x => x.2.isOpen) +
        (handles.lookup name).elim 0 Handle.held := by
  induction handles with
  | nil => rfl
  | cons x rest ih =>
      obtain ⟨name', h⟩ := x
      obtain ⟨hx, hrest⟩ := List.nodup_cons.mp hnames
      rw [List.countP_cons, List.lookup_cons]
      by_cases hname : name' = name
      · subst hname
        have hsame : rest.filter (·.1 ≠ name') = rest := by
          apply List.filter_eq_self.mpr
          intro y hy
          have hne : y.1 ≠ name' := by
            rintro rfl
            exact hx (List.mem_map.mpr ⟨y, hy, rfl⟩)
          simpa using hne
        rw [List.filter_cons_of_neg (by simp), hsame, beq_self_eq_true]
        rfl
      · have hne : (name == name') = false := by simpa using Ne.symm hname
        rw [List.filter_cons_of_pos (by simpa using hname), List.countP_cons, ih hrest, hne]
        dsimp only
        omega

namespace Balanced

variable {k k' : Int} {s : Session α} {name : String} {h old : Handle α}

theorem withState {state : ProviderState Memory} (hs : Balanced k s)
    (hstate : state.rows.openCursors + k = s.state.rows.openCursors + k') :
    Balanced k' { s with state } := by
  refine ⟨hs.source, hs.names, ?_⟩
  have hcursors := hs.cursors
  show (state.rows.openCursors : Int) = s.openHandles + k'
  omega

/-- A handle of the session holds no more than what is open. -/
theorem held_le (hs : Balanced k s) (hk : 0 ≤ k) (hlookup : s.handles.lookup name = some h) :
    h.held ≤ s.state.rows.openCursors := by
  have hcount := countP_without name hs.names
  rw [hlookup, Option.elim_some] at hcount
  have hcursors := hs.cursors
  unfold openHandles at hcursors
  omega

/-- The cursor of a removed handle is held by no other. -/
theorem removed (hs : Balanced k s) (name : String) :
    Balanced (k + ((s.handles.lookup name).elim 0 Handle.held : Nat))
      { s with handles := s.handles.filter (·.1 ≠ name) } := by
  refine ⟨hs.source, hs.names.sublist (List.filter_sublist.map _), ?_⟩
  have hcount := countP_without name hs.names
  have hcursors := hs.cursors
  unfold openHandles at hcursors ⊢
  dsimp only
  omega

/-- A new handle takes over a cursor. -/
theorem added (hs : Balanced (k + h.held) s) (hname : name ∉ s.handles.map Prod.fst) :
    Balanced k { s with handles := (name, h) :: s.handles } := by
  refine ⟨hs.source, List.nodup_cons.mpr ⟨hname, hs.names⟩, ?_⟩
  have hcursors := hs.cursors
  unfold openHandles at hcursors ⊢
  rw [List.countP_cons]
  show (s.state.rows.openCursors : Int) =
    (s.handles.countP (fun x => x.2.isOpen) + h.held : Nat) + k
  omega

theorem replaced (hs : Balanced k s)
    (hk : k + ((s.handles.lookup name).elim 0 Handle.held : Nat) = k' + h.held) :
    Balanced k' ((replace name h).run.run s).2 := by
  have hremoved := hs.removed name
  rw [hk] at hremoved
  refine hremoved.added ?_
  simp

end Balanced

theorem releaseHandle_cursors {P : Provider Memory} {state : ProviderState Memory}
    (hP : P.source = Memory.source) (h : Handle α) (hheld : h.held ≤ state.rows.openCursors) :
    ((releaseHandle P h).run state).2.rows.openCursors + h.held = state.rows.openCursors := by
  have hreader {r : Reader} (hr : h.held = r.held) :
      ((P.executor.drop r).run state).2.rows.openCursors + h.held = state.rows.openCursors := by
    rw [hr] at hheld ⊢
    exact Provider.drop_cursors hP hheld
  match h with
  | .query _ | .results none _ => rfl
  | .results (some r) _ | .iterator r _ | .reader r => exact hreader (Handle.held_of_isOpen rfl)
  | .cursor c =>
      have hone : 1 ≤ state.rows.openCursors := hheld
      show (P.source.close state.rows).openCursors + 1 = state.rows.openCursors
      rw [hP]
      show state.rows.openCursors - 1 + 1 = state.rows.openCursors
      omega

variable {k : Nat} {name : String} {h old : Handle α}

theorem replace_balanced {j k : Int} (hk : j + old.held = k + h.held) :
    Ensures fail (fun s => Balanced j s ∧ s.handles.lookup name = some old) (replace name h)
      fun _ => Balanced k := by
  rw [ensures_iff]
  rintro s x s' ⟨hs, hlookup⟩ hrun
  cases hrun
  apply hs.replaced
  rw [hlookup]
  exact hk

/-- Keeping a handle gives up what stood under its name. -/
theorem keep_balanced :
    Ensures fail (Balanced (k + h.held)) (keep name h) fun _ => Balanced k := by
  refine ensures_iff.mpr fun s x s' hs hrun => ?_
  rw [keep_run] at hrun
  split at hrun
  next old hlookup =>
    have hopen := releaseHandle_cursors hs.source old (hs.held_le (by omega) hlookup)
    have hreleased : Balanced (k + h.held - old.held)
        { s with state := ((releaseHandle s.provider old).run s.state).2 } :=
      hs.withState (by omega)
    have hreplaced : Balanced k ((replace name h).run.run
        { s with state := ((releaseHandle s.provider old).run s.state).2 }).2 := by
      apply hreleased.replaced
      rw [hlookup, Option.elim_some]
      omega
    cases hrun
    exact hreplaced
  next hlookup =>
    cases hrun
    apply hs.replaced
    rw [hlookup]
    simp

/-- A part of a step that starts with `k` cursors to spare and ends so. -/
abbrev Balances (k : Nat) (a : SessionM α β) : Prop :=
  Ensures (Balanced k) (Balanced k) a fun _ => Balanced k

theorem keepQuery_balances (name : String) (e : Expr) :
    Balances k (keepQuery name e : SessionM α (Answer α)) := by
  have hkeep : Balances k (keep name (.query e) : SessionM α Unit) := keep_balanced (h := .query e)
  exact hkeep.bind fun _ => .pure fun _ hs => hs

theorem act_balances {f : Provider Memory → Action (ProviderState Memory) β}
    (hf : ∀ P, P.source = Memory.source → Provider.Tidy (f P)) :
    Balances k (act f : SessionM α β) := by
  refine .act fun s x state hs hrun => ?_
  have hopen := hf s.provider hs.source _ _ _ hrun
  have hs' : Balanced k { s with state } := hs.withState (by omega)
  cases x with
  | error e => exact hs'
  | ok v => exact hs'

/-- What is opened is handed on with the result, `d` cursors of it. -/
theorem open_balanced {f : Provider Memory → Action (ProviderState Memory) β} {d : β → Nat}
    (hf : ∀ P, P.source = Memory.source → ∀ s x s', (f P).run.run s = (x, s') →
      Yields (fun _ => s'.rows.openCursors = s.rows.openCursors) x fun v =>
        s'.rows.openCursors = s.rows.openCursors + d v) :
    Ensures (Balanced k) (Balanced k) (act f : SessionM α β) fun v => Balanced (k + d v) := by
  refine .act fun s x state hs hrun => ?_
  have hopen := hf s.provider hs.source _ _ _ hrun
  cases x with
  | error e =>
      have hopen : state.rows.openCursors = s.state.rows.openCursors := hopen
      exact hs.withState (by omega)
  | ok v =>
      have hopen : state.rows.openCursors = s.state.rows.openCursors + d v := hopen
      exact hs.withState (by omega)

theorem execute_balanced (e : Expr) :
    Ensures (Balanced k) (Balanced k) (act (·.execute e) : SessionM α Reader)
      fun r => Balanced (k + r.held) :=
  open_balanced fun _ hP _ _ _ => Provider.execute_cursors hP

/-- Keeping what a run has handed on. -/
theorem keepReader_balances {r : Reader} (hr : h.isOpen = !r.isFinished) :
    Ensures fail (Balanced (k + r.held)) (do keep name h; return Answer.done : SessionM α (Answer α))
      fun _ => Balanced k := by
  rw [← Handle.held_of_isOpen hr]
  exact keep_balanced.bind fun _ => .pure fun _ hs => hs

/-- Reading on from the reader of a handle, which takes its new state. -/
theorem next_balanced {r : Reader} (hr : h.isOpen = !r.isFinished) :
    Ensures fail (fun s => Balanced k s ∧ s.handles.lookup name = some h)
      (onProvider (·.executor.next r) : SessionM α _) fun x s =>
        Balanced (k + x.2.held - h.held) s ∧ s.handles.lookup name = some h := by
  refine .onProvider fun s x state hs hrun => ⟨?_, hs.2⟩
  have hheld := hs.1.held_le (by omega) hs.2
  rw [Handle.held_of_isOpen hr] at hheld ⊢
  have hopen := Provider.next_cursors hs.1.source hheld hrun
  exact hs.1.withState (by omega)

theorem putBack_balanced {h' : Handle α} {r : Reader} (hr : h'.isOpen = !r.isFinished) :
    Ensures fail (fun s => Balanced (k + r.held - h.held) s ∧ s.handles.lookup name = some h)
      (replace name h') fun _ => Balanced k := by
  apply replace_balanced
  rw [Handle.held_of_isOpen hr]
  omega

theorem stepNext_balances (name : String) : Balances k (stepNext name : SessionM α _) := by
  refine (Ensures.find name fun _ hs => hs).bind fun h => ?_
  cases h with
  | iterator r convert =>
      refine (next_balanced rfl).bind fun x => ?_
      obtain ⟨item, r'⟩ := x
      refine (putBack_balanced rfl).bind fun _ => ?_
      cases item with
      | none => exact .pure fun _ hs => hs
      | some item => exact (Ensures.ofExcept fun _ hs => hs).bind fun _ => .pure fun _ hs => hs
  | _ => exact .throw fun _ hs => hs.1

theorem stepRow_balances (name : String) : Balances k (stepRow name : SessionM α _) := by
  refine (Ensures.findReader name fun _ hs => hs).bind fun r => ?_
  refine (next_balanced rfl).bind fun x => ?_
  obtain ⟨item, r'⟩ := x
  refine (putBack_balanced rfl).bind fun _ => ?_
  cases item with
  | none => exact .pure fun _ hs => hs
  | some item => exact (Ensures.ofExcept fun _ hs => hs).bind fun _ => .pure fun _ hs => hs

theorem stepEnumerate_balances (results name : String) :
    Balances k (stepEnumerate results name : SessionM α _) := by
  refine (Ensures.find results fun _ hs => hs).bind fun h => ?_
  cases h with
  | results reader convert =>
      cases reader with
      | none => exact .throw fun _ hs => hs.1
      | some r =>
          -- The reader's cursor is held by no handle until the iterator is kept.
          have hheld : (Handle.results (some r) convert).held = r.held := Handle.held_of_isOpen rfl
          refine (replace_balanced (k := k + r.held) (by rw [hheld]; rfl)).bind fun _ => ?_
          exact keepReader_balances rfl
  | _ => exact .throw fun _ hs => hs.1

theorem stepRead_balances (name : String) : Balances k (stepRead name : SessionM α _) := by
  refine (Ensures.findCursor name fun _ hs => hs).bind fun c => ?_
  have hreplace : Ensures (Balanced k)
      (fun s => Balanced k s ∧ s.handles.lookup name = some (.cursor c))
      (replace name (.cursor c.advance) : SessionM α Unit) fun _ => Balanced k := replace_balanced rfl
  exact hreplace.bind fun _ => .pure fun _ hs => hs

theorem openCursor_balances (name command : String) :
    Balances k (step (.openCursor name command) : SessionM α _) := by
  have hopen : Ensures (Balanced k) (Balanced k)
      (act fun _ => Provider.onSource (Memory.execute command) : SessionM α (List Row))
      fun _ => Balanced (k + (1 : Nat)) := by
    refine open_balanced fun _ _ s x s' hrun => ?_
    exact Memory.openCursors_of_execute (Provider.onSource_cases hrun).1
  refine hopen.bind fun rows => ?_
  exact (keep_balanced (h := .cursor (.ofRows rows))).bind fun _ => .pure fun _ hs => hs

theorem drop_balances (name : String) : Balances k (step (.drop name) : SessionM α _) := by
  refine (Ensures.find name fun _ hs => hs).bind fun h => ?_
  have hrelease : Ensures (Balanced k) (fun s => Balanced k s ∧ s.handles.lookup name = some h)
      (onProvider (releaseHandle · h) : SessionM α Unit) fun _ s =>
        Balanced (k - h.held) s ∧ s.handles.lookup name = some h := by
    refine .onProvider fun s x state hs hrun => ⟨?_, hs.2⟩
    have hopen := releaseHandle_cursors hs.1.source h (hs.1.held_le (by omega) hs.2)
    rw [hrun] at hopen
    exact hs.1.withState (by dsimp only at hopen; omega)
  have hremove : Ensures (Balanced k)
      (fun s => Balanced (k - h.held) s ∧ s.handles.lookup name = some h)
      (remove name : SessionM α Unit) fun _ => Balanced k := by
    rw [ensures_iff]
    rintro s x s' ⟨hs, hlookup⟩ hrun
    have hremoved := hs.removed name
    rw [hlookup, Option.elim_some, Int.sub_add_cancel] at hremoved
    cases hrun
    exact hremoved
  exact hrelease.bind fun _ => hremove.bind fun _ => .pure fun _ hs => hs

theorem step_balances (st : Step α) : Balances k (step st) := by
  cases st with
  | prepare e =>
      exact (act_balances fun _ _ => Provider.prepare_tidy e).bind fun _ => .pure fun _ hs => hs
  | query name e => exact keepQuery_balances name e
  | filter source name e | select source name e | existence source name e | absence source name e =>
      exact (Ensures.findQuery source fun _ hs => hs).bind fun q => keepQuery_balances name _
  | join outer inner name outerKey innerKey result =>
      refine (Ensures.findQuery outer fun _ hs => hs).bind fun o => ?_
      exact (Ensures.findQuery inner fun _ hs => hs).bind fun i => keepQuery_balances name _
  | toList source name =>
      exact (Ensures.findQuery source fun _ hs => hs).bind fun q => keepQuery_balances name _
  | sql query =>
      refine (Ensures.findQuery query fun _ hs => hs).bind fun e => ?_
      exact (act_balances fun _ _ => Provider.prepare_tidy e).bind fun _ => .pure fun _ hs => hs
  | collect query convert =>
      refine (Ensures.findQuery query fun _ hs => hs).bind fun e => ?_
      refine (execute_balanced e).bind fun r => ?_
      have hcollect : Ensures (Balanced k) (Balanced (k + r.held))
          (onProvider (·.executor.collect convert r) : SessionM α _) fun _ => Balanced k := by
        refine .onProvider fun s x state hs hrun => ?_
        have hheld : r.held ≤ s.state.rows.openCursors := by
          have hcursors := hs.cursors
          omega
        have hopen := Provider.collect_cursors hs.source hheld hrun
        exact hs.withState (by omega)
      refine hcollect.bind fun items => ?_
      exact (Ensures.ofExcept fun _ hs => hs).bind fun _ => .pure fun _ hs => hs
  | execute query name convert =>
      refine (Ensures.findQuery query fun _ hs => hs).bind fun e => ?_
      exact (execute_balanced e).bind fun r => keepReader_balances rfl
  | enumerate results name => exact stepEnumerate_balances results name
  | next iterator => exact stepNext_balances iterator
  | run name e => exact (execute_balanced e).bind fun r => keepReader_balances rfl
  | runProjection name p =>
      refine (open_balanced fun P hP s x s' hrun => ?_).bind fun r => keepReader_balances rfl
      have hstart := (Provider.executeProjection_starts hrun).cursors hP
      cases x with
      | error e => exact hstart
      | ok r => exact hstart.1
  | row reader => exact stepRow_balances reader
  | isFinished reader =>
      exact (Ensures.findReader reader fun _ hs => hs).bind fun _ => .pure fun _ hs => hs.1
  | field reader ordinal | outerField reader depth ordinal =>
      refine (Ensures.findReader reader fun _ hs => hs).bind fun r => ?_
      exact (Ensures.ofExcept fun _ hs => hs.1).bind fun _ => .pure fun _ hs => hs.1
  | subquery reader p =>
      refine (Ensures.findReader reader fun _ hs => hs).bind fun r => ?_
      have hsubquery : Balances k (act (·.executor.subquery r p) : SessionM α Value) :=
        act_balances fun P hP => Provider.subquery_tidy hP r p
      exact (hsubquery.weaken fun _ hs => hs.1).bind fun _ => .pure fun _ hs => hs
  | openCursor name command => exact openCursor_balances name command
  | read cursor => exact stepRead_balances cursor
  | fieldCount cursor =>
      exact (Ensures.findCursor cursor fun _ hs => hs).bind fun _ => .pure fun _ hs => hs.1
  | isNull cursor ordinal | cursorField cursor ordinal =>
      refine (Ensures.findCursor cursor fun _ hs => hs).bind fun c => ?_
      exact (Ensures.ofExcept fun _ hs => hs.1).bind fun _ => .pure fun _ hs => hs.1
  | respond command rows =>
      refine ensures_iff.mpr fun s x s' hs hrun => ?_
      cases hrun
      exact ⟨hs.source, hs.names, hs.cursors⟩
  | clearCache =>
      refine ensures_iff.mpr fun s x s' hs hrun => ?_
      cases hrun
      exact ⟨hs.source, hs.names, hs.cursors⟩
  | settings =>
      refine ensures_iff.mpr fun s x s' hs hrun => ?_
      cases hrun
      exact hs
  | tableName entity =>
      refine ensures_iff.mpr fun s x s' hs hrun => ?_
      have hname : Balances k (ofExcept (s.provider.catalog.table entity) >>= fun t =>
          return .text t.name : SessionM α (Answer α)) :=
        (Ensures.ofExcept fun _ hs => hs).bind fun _ => .pure fun _ hs => hs
      exact ensures_iff.mp hname s x s' hs hrun
  | clear entity =>
      refine (act_balances fun P hP => ?_).bind fun _ => .pure fun _ hs => hs
      exact .after _ fun t => Provider.command_tidy hP _
  | delete entity predicate =>
      refine (act_balances fun P hP => ?_).bind fun _ => .pure fun _ hs => hs
      exact .after _ fun t => .after _ fun sql => Provider.command_tidy hP sql
  | update entity assignments predicate =>
      refine (act_balances fun P hP => ?_).bind fun _ => .pure fun _ hs => hs
      exact .after _ fun t => .after _ fun sql => Provider.command_tidy hP sql
  | drop name => exact drop_balances name

theorem run_balanced (steps : List (Step α)) {s : Session α} (hs : Balanced k s) :
    ∀ x ∈ run steps s, Balanced k x.2 := by
  induction steps generalizing s with
  | nil => exact List.forall_mem_nil _
  | cons st rest ih =>
      have hstep : Balanced k ((step st).run.run s).2 := by
        cases hrun : (step st).run.run s with
        | mk x s' =>
            have h := ensures_iff.mp (step_balances st) s x s' hs hrun
            cases x with
            | error e => exact h
            | ok v => exact h
      intro x hx
      rcases List.mem_cons.mp hx with rfl | hx
      · exact hstep
      · exact ih hstep x hx

/-- After an item is asked for, the iterator stands where its reader stands, even if the item cannot
be converted. -/
theorem next_keeps_reader {name : String} {r r' : Reader} {convert : Value → Except Error α}
    {item : Option (Except Error Value)} {s : Session α} {state : ProviderState Memory}
    (hlookup : s.handles.lookup name = some (.iterator r convert))
    (hnext : (s.provider.executor.next r).run s.state = ((item, r'), state)) :
    ((step (.next name)).run.run s).2.handles.lookup name = some (.iterator r' convert) := by
  have hfind : (find name).run.run s = (.ok (.iterator r convert), s) := by
    rw [find_run, hlookup]
  have hread : (onProvider (·.executor.next r) : SessionM α _).run.run s =
      (.ok (item, r'), { s with state }) := by
    show (Except.ok ((s.provider.executor.next r).run s.state).1,
      { s with state := ((s.provider.executor.next r).run s.state).2 }) = _
    rw [hnext]
  show ((stepNext name).run.run s).2.handles.lookup name = _
  rw [stepNext, ExceptT.run_bind, StateT.run_bind, hfind]
  show ((onProvider (·.executor.next r) >>= _ : SessionM α _).run.run s).2.handles.lookup name = _
  rw [ExceptT.run_bind, StateT.run_bind, hread]
  match item with
  | none => exact List.lookup_cons_self
  | some (.error e) => exact List.lookup_cons_self
  | some (.ok v) =>
      show ((ofExcept (convert v) >>= fun a => return .item (some a) : SessionM α (Answer α)).run.run
        ((replace name (.iterator r' convert)).run.run { s with state }).2).2.handles.lookup name = _
      cases convert v with
      | error e => exact List.lookup_cons_self
      | ok a => exact List.lookup_cons_self

/-- Cursors are accounted for exactly. After every step of a session over rows in memory there are as
many cursors open, beyond those that were at the start, as there are handles that hold one. A nested
projection leaves none open, and an item changes their number only by the cursor of its reader, which
is closed where the reader ends. An ended reader has no item and does nothing, and an item that cannot
be converted does not end one. -/
theorem cursors_accounted (catalog : Catalog) (settings : Settings) :
    let P : Provider Memory := ⟨catalog, settings, Memory.source⟩
    (∀ (m : Memory) (steps : List (Step α)),
      ∀ x ∈ run steps { provider := P, state := { rows := m } },
        x.2.state.rows.openCursors = m.openCursors + x.2.openHandles) ∧
    (∀ (r : Reader) (s : ProviderState Memory),
      (∀ q, ((P.executor.subquery r q).run.run s).2.rows.openCursors = s.rows.openCursors) ∧
      (r.isFinished → (P.executor.next r).run s = ((none, r), s)) ∧
      ∀ c item r' s', r.cursor = some c → (P.executor.next r).run s = ((item, r'), s') →
        (0 < s.rows.openCursors → s'.rows.openCursors + 1 = s.rows.openCursors + r'.held) ∧
        (r'.isFinished ↔ P.executor.Ends (P.executor.nestedTo r.materializer.nesting) r c s)) ∧
    ∀ (s : Session α) (name : String) (r r' : Reader) (convert : Value → Except Error α) item state,
      s.handles.lookup name = some (.iterator r convert) →
      (s.provider.executor.next r).run s.state = ((item, r'), state) →
      ((step (.next name)).run.run s).2.handles.lookup name = some (.iterator r' convert) := by
  intro P
  refine ⟨?_, ?_, fun _ _ _ _ _ _ _ => next_keeps_reader⟩
  · intro m steps x hx
    have hfresh : Balanced m.openCursors ({ provider := P, state := { rows := m } } : Session α) :=
      ⟨rfl, List.nodup_nil, by simp [openHandles]⟩
    have hcursors := (run_balanced steps hfresh x hx).cursors
    omega
  · intro r s
    refine ⟨fun q => Provider.subquery_tidy rfl r q s _ _ rfl, ?_, ?_⟩
    · intro hr
      exact Executor.nextWith_finished hr s
    · intro c item r' s' hr h
      have hheld : r.held = 1 := by simp [Reader.held, Reader.isFinished, hr]
      refine ⟨?_, Executor.nextWith_ends hr h⟩
      intro hopen
      have hcursors := Provider.next_cursors rfl (by omega) h
      omega

/-- The items of owners, read as numbers: a list is none, but the reader goes on until its own cursor
fails. -/
theorem cursors_accounted_of_itemsByOwner :
    let P : Provider Memory := ⟨Binding.ownership, {}, Memory.source⟩
    let m : Memory :=
      { fallback := fun _ => some [[.int32 7, .int32 1], [.int32 9, .int32 2]], faultAt := some 4 }
    let steps : List (Step Int64) := [.query "owners" Binding.itemsByOwner,
      .execute "owners" "results" Value.asInt64, .enumerate "results" "iterator",
      .next "iterator", .next "iterator"]
    let outcomes := run steps { provider := P, state := { rows := m } }
    outcomes.map (fun x => (x.1.isOk, x.2.state.rows.openCursors)) =
        [(true, 0), (true, 1), (true, 1), (false, 1), (false, 0)] ∧
      (∀ x ∈ outcomes, x.2.state.rows.openCursors = 0 + x.2.openHandles) ∧
      ∀ s, (P.executor.next ⟨none, .constant .null, []⟩).run s =
        ((none, ⟨none, .constant .null, []⟩), s) := by
  intro P m steps outcomes
  have haccounted := cursors_accounted (α := Int64) Binding.ownership {}
  exact ⟨by cbv, haccounted.1 m steps, fun s => (haccounted.2.1 _ s).2.1 rfl⟩

end Session

end Quarry
