import Quarry.Proofs.Actions
import Quarry.Proofs.Materialization
import Quarry.Proofs.Severity
/-!
No invariant of the library is ever broken while a closed query runs: neither when it is prepared,
nor when its rows and those of its nested projections are read, whatever rows the source answers
with.
-/
namespace Quarry

/-! Actions that run alike -/

/-- From every state that meets the invariant the two programs run alike and keep the invariant, and
their result meets `Q`. -/
def RunsAlike {σ α : Type} (Inv : σ → Prop) (a b : StateM σ α) (Q : α → Prop) : Prop :=
  Relates (Same Inv) a b fun v => Same fun s => Inv s ∧ Q v

section Alike

variable {σ α β : Type} {Inv : σ → Prop} {a b : StateM σ α} {P Q : α → Prop}

theorem runsAlike_iff : RunsAlike Inv a b Q ↔
    ∀ s, Inv s → b.run s = a.run s ∧ Inv (a.run s).2 ∧ Q (a.run s).1 := by
  constructor
  · intro h s hs
    obtain ⟨hresult, hstate, hpost⟩ := h s s ⟨rfl, hs⟩
    exact ⟨(Prod.ext hresult hstate).symm, hpost⟩
  · rintro h s _ ⟨rfl, hs⟩
    obtain ⟨hrun, hpost⟩ := h s hs
    rw [hrun]
    exact ⟨rfl, rfl, hpost⟩

namespace RunsAlike

theorem pure {v : α} (h : Q v) : RunsAlike Inv (Pure.pure v) (Pure.pure v) Q :=
  Relates.pure fun _ _ hst => ⟨hst.1, hst.2, h⟩

theorem bind {f g : α → StateM σ β} {R : β → Prop} (h : RunsAlike Inv a b P)
    (hf : ∀ v, P v → RunsAlike Inv (f v) (g v) R) : RunsAlike Inv (a >>= f) (b >>= g) R :=
  Relates.bind h fun v s t hst => hf v hst.2.2 s t ⟨hst.1, hst.2.1⟩

theorem modifying {f : σ → σ} (h : ∀ s, Inv s → Inv (f s)) :
    RunsAlike Inv (modify f) (modify f) fun _ => True :=
  Relates.modifying fun s _ hst => ⟨congrArg f hst.1, h s hst.2, trivial⟩

end RunsAlike

end Alike

/-- The same of actions that may fail: they break no invariant of the library, and where they
succeed the result meets `Q`. -/
abbrev Guarded {σ α : Type} (Inv : σ → Prop) (a b : Action σ α) (Q : α → Prop) : Prop :=
  RunsAlike Inv a.run b.run (Yields (¬ ·.IsFault) · Q)

namespace Guarded

variable {σ α β : Type} {Inv : σ → Prop} {a b : Action σ α} {P Q : α → Prop}

theorem pure {v : α} (h : Q v) : Guarded Inv (Pure.pure v) (Pure.pure v) Q := RunsAlike.pure h

theorem lift {x : Except Error α} (h : Yields (¬ ·.IsFault) x Q) :
    Guarded Inv (liftM x) (liftM x) Q :=
  Relates.lift fun _ _ hst => ⟨hst.1, hst.2, h⟩

theorem bind {f g : α → Action σ β} {R : β → Prop} (h : Guarded Inv a b P)
    (hf : ∀ v, P v → Guarded Inv (f v) (g v) R) : Guarded Inv (a >>= f) (b >>= g) R :=
  Relates.andThen h (fun v s t hst => hf v hst.2.2 s t ⟨hst.1, hst.2.1⟩) fun _ _ _ hst => hst

theorem tryCatch {f g : Error → Action σ α} (h : Guarded Inv a b Q)
    (hf : ∀ e, ¬ e.IsFault → Guarded Inv (f e) (g e) Q) :
    Guarded Inv (ExceptT.tryCatch a f) (ExceptT.tryCatch b g) Q :=
  Relates.tryCatch h (fun e s t hst => hf e hst.2.2 s t ⟨hst.1, hst.2.1⟩) fun _ _ _ hst => hst

end Guarded

/-! Making a nested select ready for a row -/

namespace Expr

/-- Nothing here depends on a row around the query, or is left of an operation tree. -/
def isDetached : Expr → Bool
  | .outerRow _ | .call .. => false
  | _ => true

theorem isIndexed_of_isDetached {e : Expr} (h : e.isDetached) : e.isIndexed := by
  cases e with
  | call => cases h
  | _ => rfl

theorem isDetached_of_alike {R : Expr → Expr → Prop} {e e' : Expr} (h : Alike R e e')
    (he : e.isDetached) : e'.isDetached := by
  cases h with
  | leaf => exact he
  | call => cases he
  | _ => rfl

theorem foldWith_detached {p : Expr → Bool} {e e' : Expr} (h : ∀ x ∈ e.nodes, x.isDetached)
    (hfold : e.foldWith p = .ok e') : ∀ x ∈ e'.nodes, x.isDetached := by
  induction e using children_induction generalizing e' with
  | step e ih =>
      obtain ⟨hnode, hbelow⟩ := forall_mem_nodes.mp h
      rcases foldWith_cases hfold with ⟨-, hconstant⟩ | ⟨-, halike⟩
      · obtain ⟨v, t, rfl⟩ := foldNode_eq_ok hconstant
        exact forall_mem_nodes.mpr ⟨rfl, List.forall_mem_nil _⟩
      · refine forall_mem_nodes.mpr ⟨isDetached_of_alike halike hnode, fun c' hc' => ?_⟩
        obtain ⟨c, hc, -, hfold⟩ := exists_of_mem_right halike.children hc'
        exact ih c hc (hbelow c hc) hfold

/-- A select that is folded inside is still a select. -/
theorem foldWith_select {s : Select Expr} {e' : Expr}
    (h : (select s).foldWith isLocalInSubquery = .ok e') :
    ∃ s', e' = .select s' ∧ s'.label = s.label := by
  rcases foldWith_cases h with ⟨hall, -⟩ | ⟨-, halike⟩
  · cases List.all_eq_true.mp hall _ (self_mem_nodes _)
  · cases halike with
    | leaf hleaf => cases hleaf
    | select hs => exact ⟨_, rfl, hs.label.symm⟩

end Expr

namespace Reader

variable {r : Reader} {e : Expr}

theorem field_faultless (r : Reader) (ordinal : Nat) : Faultless (r.field ordinal) := by
  unfold field Cursor.field
  repeat' split
  all_goals first | trivial | rintro ⟨⟩

theorem outerField_faultless {depth : Nat} (h : depth < r.outer.length) (ordinal : Nat) :
    Faultless (r.outerField depth ordinal) := by
  have hrow : r.outer[depth]? = some r.outer[depth] := List.getElem?_eq_getElem h
  simp only [outerField, hrow]
  split
  · trivial
  · rintro ⟨⟩

theorem enclosingField_faultless {row : OuterRow} (h : row.depth < r.outer.length + 1) :
    Faultless (r.enclosingField row) := by
  obtain ⟨depth, ordinal, type⟩ := row
  cases depth with
  | zero => exact r.field_faultless ordinal
  | succ depth => exact outerField_faultless (Nat.lt_of_succ_lt_succ h) ordinal

theorem substituteNode_yields {row : OuterRow} (h : row.depth < r.outer.length + 1) :
    Yields (¬ ·.IsFault) (r.substituteNode (.outerRow row)) fun o =>
      ∃ v, o = some (.constant v row.type) := by
  refine Yields.bind (enclosingField_faultless h) fun v _ => ?_
  exact Yields.bind (v.cast_faultless row.type) fun w _ => ⟨w, rfl⟩

/-- The values of the rows around it are put into an expression. -/
theorem replaceM_yields (h : ∀ x ∈ e.nodes, x.isReady (r.outer.length + 1)) :
    Yields (¬ ·.IsFault) (Expr.replaceM r.substituteNode e) fun e' =>
      (∀ x ∈ e'.nodes, x.isDetached) ∧ e'.label? = e.label? := by
  induction e using Expr.children_induction with
  | step e ih =>
      obtain ⟨hnode, hbelow⟩ := Expr.forall_mem_nodes.mp h
      rw [Expr.replaceM_eq]
      by_cases houter : ∃ row, e = .outerRow row
      · obtain ⟨row, rfl⟩ := houter
        refine (substituteNode_yields (of_decide_eq_true hnode)).bind ?_
        rintro _ ⟨v, rfl⟩
        exact ⟨Expr.forall_mem_nodes.mpr ⟨rfl, List.forall_mem_nil _⟩, rfl⟩
      · have hnone : r.substituteNode e = .ok none := by
          cases e with
          | outerRow row => exact absurd ⟨row, rfl⟩ houter
          | _ => rfl
        have hdetached : e.isDetached := by
          cases e with
          | outerRow row => exact absurd ⟨row, rfl⟩ houter
          | call => cases hnode
          | _ => rfl
        rw [hnone]
        show Yields _ (Expr.mapChildrenM (Expr.replaceM r.substituteNode) e) _
        rw [Expr.mapChildrenM_eq]
        have hself : List.Forall₂ (fun c c' => c = c' ∧ c ∈ e.children) e.children e.children := by
          rw [List.forall₂_same]
          exact fun c hc => ⟨rfl, hc⟩
        refine Yields.map (Yields.mapM (S := fun c' c => (∀ x ∈ c'.nodes, x.isDetached) ∧
          c'.label? = c.label?) hself ?_) fun cs hcs => ?_
        · rintro c _ ⟨rfl, hc⟩
          exact ih c hc (hbelow c hc)
        · have halike := Expr.alike_withChildren hcs.flip
          refine ⟨Expr.forall_mem_nodes.mpr ⟨Expr.isDetached_of_alike halike hdetached, ?_⟩,
            halike.label_eq⟩
          intro c' hc'
          obtain ⟨c, -, hc, -⟩ := exists_of_mem_right halike.children hc'
          exact hc

/-- A nested select that is made ready for a row keeps its label, and no row around it is left. -/
theorem specialize_yields {s : Select Expr}
    (h : ∀ x ∈ (Expr.select s).nodes, x.isReady (r.outer.length + 1)) :
    Yields (¬ ·.IsFault) (r.specialize s) fun s' =>
      s'.label = s.label ∧ ∀ x ∈ (Expr.select s').nodes, x.isDetached := by
  have hselect : Expr.replaceM r.substituteNode (.select s) =
      Expr.select <$> Expr.replaceSelectM r.substituteNode s := by
    rw [Expr.replaceM]
    rfl
  have hreplace := replaceM_yields h
  rw [hselect] at hreplace
  have hput : Yields (¬ ·.IsFault) (Expr.replaceSelectM r.substituteNode s) fun s' =>
      (∀ x ∈ (Expr.select s').nodes, x.isDetached) ∧ s'.label = s.label := by
    cases hs : Expr.replaceSelectM r.substituteNode s with
    | error err =>
        rw [hs] at hreplace
        exact hreplace
    | ok s' =>
        rw [hs] at hreplace
        exact ⟨hreplace.1, Option.some.inj hreplace.2⟩
  refine hput.bind fun s₁ hs₁ => ?_
  have hfold : Faultless ((Expr.select s₁).foldWith Expr.isLocalInSubquery) :=
    Expr.foldWith_faultless fun x hx => Expr.isIndexed_of_isDetached (hs₁.1 x hx)
  refine hfold.result.bind fun e' he' => ?_
  obtain ⟨s', rfl, hlabel⟩ := Expr.foldWith_select he'.1
  exact ⟨hlabel.trans hs₁.2, Expr.foldWith_detached hs₁.1 he'.1⟩

theorem snapshot_faultless (r : Reader) : Faultless r.snapshot := by
  unfold snapshot
  split
  · rintro ⟨⟩
  · exact Faultless.mapM fun ordinal _ => r.field_faultless ordinal

end Reader

/-! Reading -/

/-- A bound query that can be started where `k` rows enclose it: its select depends on none of them,
and its projector has a materializer. -/
structure Startable (k : Nat) (p : Projection Expr) : Prop where
  detached : ∀ x ∈ (Expr.select p.source).nodes, x.isDetached
  buildable : Materializer.Buildable k p.source.label p.projector

/-- Both executors start what can be started, and they do so alike. -/
structure Executor.Upholds {σ : Type} (X X' : Executor σ) (Inv : σ → Prop) : Prop where
  start : ∀ p outer, Startable outer.length p → Guarded Inv (X.start p outer) (X'.start p outer)
    fun r => r.outer = outer ∧ Materializer.ofExpr p.source.label p.projector = .ok r.materializer
  beforeRead : Guarded Inv X.beforeRead X'.beforeRead fun _ => True
  release : X'.release = X.release
  keeps : ∀ s, Inv s → Inv (X.release s)

/-- The materializer of the reader is one of a projector that the rows around the reader suffice
for. -/
def Reader.Fits (r : Reader) : Prop :=
  ∃ label e, Materializer.ofExpr label e = .ok r.materializer ∧
    Materializer.Buildable r.outer.length label e

namespace Executor

variable {σ : Type} {Inv : σ → Prop} {X X' : Executor σ} {nested nested' : Nested σ} {depth : Nat}
variable {r : Reader}

/-- Nested projections up to a depth are run alike. -/
def NestedGuarded (Inv : σ → Prop) (depth : Nat) (nested nested' : Nested σ) : Prop :=
  ∀ r q, q.Ready (r.outer.length + 1) → (Expr.projection q).projectionDepth ≤ depth →
    Guarded Inv (nested r q) (nested' r q) fun _ => True

theorem runMembers_guarded {access access' : RowAccess σ} {label : String}
    {ms : List (String × Expr)} {mats : List (String × Materializer)}
    (h : ∀ x ∈ ms, ∀ m, Materializer.ofExpr label x.2 = .ok m → m.nesting ≤ depth →
      Guarded Inv (m.run access) (m.run access') fun _ => True)
    (hms : Materializer.ofMembers label ms = .ok mats)
    (hdepth : Materializer.nestingMembers mats ≤ depth) :
    Guarded Inv (Materializer.runMembers access mats) (Materializer.runMembers access' mats)
      fun _ => True := by
  induction ms generalizing mats with
  | nil =>
      cases hms
      exact .pure trivial
  | cons x ms ih =>
      obtain ⟨name, e⟩ := x
      simp only [Materializer.ofMembers, bind_eq_ok, pure_eq_ok] at hms
      obtain ⟨m, hm, mats, hmats, rfl⟩ := hms
      rw [Materializer.nestingMembers, max_le_iff] at hdepth
      rw [Materializer.runMembers, Materializer.runMembers]
      refine (h _ List.mem_cons_self m hm hdepth.1).bind fun v _ => ?_
      refine (ih (fun x hx => h x (List.mem_cons_of_mem _ hx)) hmats hdepth.2).bind fun fs _ => ?_
      exact .pure trivial

/-- A projector is read alike if nested projections are. -/
theorem run_guarded (hnested : NestedGuarded Inv depth nested nested') {label : String} {e : Expr}
    {m : Materializer} (he : Materializer.Buildable r.outer.length label e)
    (hm : Materializer.ofExpr label e = .ok m) (hdepth : m.nesting ≤ depth) :
    Guarded Inv (m.run (rowAccess nested r)) (m.run (rowAccess nested' r)) fun _ => True := by
  induction e using Expr.children_induction generalizing m with
  | step e ih =>
      have hchild (hc : e.isComposite) : ∀ c ∈ e.children, ∀ m,
          Materializer.ofExpr label c = .ok m → m.nesting ≤ depth →
            Guarded Inv (m.run (rowAccess nested r)) (m.run (rowAccess nested' r)) fun _ => True :=
        fun c hmem m => ih c hmem (he.child hc hmem)
      cases e with
      | constant v t =>
          cases hm
          exact .pure trivial
      | column c =>
          rw [Materializer.ofExpr] at hm
          split at hm
          next =>
            cases hm
            exact .bind (.lift (r.field_faultless c.ordinal)) fun v _ => .lift (v.cast_faultless _)
          next => cases hm
      | outerRow row =>
          cases hm
          have hrow : row.depth < r.outer.length :=
            of_decide_eq_true (he.ready _ (Expr.self_mem_nodes _))
          exact .bind (.lift (Reader.outerField_faultless hrow row.ordinal)) fun v _ =>
            .lift (v.cast_faultless _)
      | projection q =>
          cases hm
          exact hnested r _ (Materializer.correlate_ready he) hdepth
      | member target name =>
          obtain ⟨m, hbuild, hmember⟩ := bind_eq_ok.mp hm
          cases hmember
          exact (hchild rfl target (by simp [Expr.children]) m hbuild hdepth).bind fun v _ =>
            .lift (Materializer.takeMember_faultless name v)
      | unary op a =>
          obtain ⟨m, hbuild, hunary⟩ := bind_eq_ok.mp hm
          cases hunary
          exact (hchild rfl a (by simp [Expr.children]) m hbuild hdepth).bind fun v _ =>
            .lift (v.applyUnary_faultless op)
      | binary op a b =>
          obtain ⟨m, hbuild, hrest⟩ := bind_eq_ok.mp hm
          obtain ⟨m', hbuild', hbinary⟩ := bind_eq_ok.mp hrest
          cases hbinary
          rw [Materializer.nesting, max_le_iff] at hdepth
          refine (hchild rfl a (by simp [Expr.children]) m hbuild hdepth.1).bind fun v _ => ?_
          refine (hchild rfl b (by simp [Expr.children]) m' hbuild' hdepth.2).bind fun w _ => ?_
          exact .lift (v.applyBinary_faultless op w)
      | construct t ms =>
          obtain ⟨mats, hmats, hrecord⟩ := bind_eq_ok.mp hm
          cases hrecord
          refine (runMembers_guarded (fun x hx => hchild rfl x.2 (List.mem_map_of_mem hx)) hmats
            hdepth).bind fun fs _ => ?_
          exact .pure trivial
      | _ => cases he.material

theorem readRow_guarded (hX : X.Upholds X' Inv) (hnested : NestedGuarded Inv depth nested nested')
    (hr : r.Fits) (hdepth : r.materializer.nesting ≤ depth) (c : Cursor) :
    Guarded Inv (X.readRow nested r c) (X'.readRow nested' r c) fun o =>
      ∀ v r', o = some (v, r') → r'.outer = r.outer ∧ r'.materializer = r.materializer := by
  obtain ⟨label, e, hm, he⟩ := hr
  refine hX.beforeRead.bind fun _ _ => ?_
  dsimp only
  split
  · refine .pure ?_
    rintro _ _ ⟨⟩
  · refine (run_guarded (r := { r with cursor := some c.advance }) hnested he hm hdepth).bind ?_
    intro v _
    refine .pure ?_
    rintro _ _ ⟨⟩
    exact ⟨rfl, rfl⟩

/-- An item of a reader is no broken invariant, and the reader stays as it is but for its cursor. -/
structure ItemFits (r : Reader) (result : Option (Except Error Value) × Reader) : Prop where
  faultless : ∀ item, result.1 = some item → Faultless item
  outer : result.2.outer = r.outer
  materializer : result.2.materializer = r.materializer

theorem nextWith_alike (hX : X.Upholds X' Inv) (hnested : NestedGuarded Inv depth nested nested')
    (hr : r.Fits) (hdepth : r.materializer.nesting ≤ depth) :
    RunsAlike Inv (X.nextWith nested r) (X'.nextWith nested' r) (ItemFits r) := by
  unfold nextWith
  split
  · refine .pure ⟨?_, rfl, rfl⟩
    rintro _ ⟨⟩
  · rw [hX.release]
    refine RunsAlike.bind (readRow_guarded hX hnested hr hdepth _) fun x hx => ?_
    match x with
    | .error err =>
        refine (RunsAlike.modifying hX.keeps).bind fun _ _ => .pure ⟨?_, rfl, rfl⟩
        rintro _ ⟨⟩
        exact hx
    | .ok none =>
        refine (RunsAlike.modifying hX.keeps).bind fun _ _ => .pure ⟨?_, rfl, rfl⟩
        rintro _ ⟨⟩
    | .ok (some (v, r')) =>
        obtain ⟨houter, hmaterializer⟩ := hx v r' rfl
        refine .pure ⟨?_, houter, hmaterializer⟩
        rintro _ ⟨⟩
        exact .ok v

theorem ItemFits.fits {result : Option (Except Error Value) × Reader} (h : ItemFits r result)
    (hr : r.Fits) : result.2.Fits := by
  obtain ⟨label, e, hm, he⟩ := hr
  exact ⟨label, e, h.materializer ▸ hm, h.outer ▸ he⟩

theorem drop_alike (hX : X.Upholds X' Inv) (r : Reader) :
    RunsAlike Inv (X.drop r) (X'.drop r) fun _ => True := by
  unfold drop
  rw [hX.release]
  cases r.isFinished with
  | true => exact .pure trivial
  | false => exact .modifying hX.keeps

/-- However many items are read, they are read alike. -/
theorem collectWith_guarded (hX : X.Upholds X' Inv)
    (hnested : NestedGuarded Inv depth nested nested') (hr : r.Fits)
    (hdepth : r.materializer.nesting ≤ depth) (count : Nat) :
    Guarded Inv (ExceptT.mk (X.collectWith nested .ok count r))
      (ExceptT.mk (X'.collectWith nested' .ok count r)) fun _ => True := by
  show RunsAlike Inv (X.collectWith nested .ok count r) (X'.collectWith nested' .ok count r) _
  induction count generalizing r with
  | zero => exact (drop_alike hX r).bind fun _ _ => .pure trivial
  | succ count ih =>
      rw [collectWith, collectWith]
      refine (nextWith_alike hX hnested hr hdepth).bind ?_
      rintro ⟨item, r'⟩ hitem
      match item with
      | none => exact .pure trivial
      | some (.error err) =>
          exact (drop_alike hX r').bind fun _ _ => .pure (hitem.faultless _ rfl)
      | some (.ok v) =>
          have hle : r'.materializer.nesting ≤ depth := hitem.materializer ▸ hdepth
          refine (ih (hitem.fits hr) hle).bind fun vs hvs => .pure ?_
          exact Yields.map hvs fun _ _ => trivial

/-- However deep projections are nested, they are run alike. -/
theorem nestedTo_guarded (hX : X.Upholds X' Inv) (depth : Nat) :
    NestedGuarded Inv depth (X.nestedTo depth) (X'.nestedTo depth) := by
  induction depth with
  | zero =>
      intro r q _ hdepth
      exact absurd hdepth (Nat.not_le_of_lt
        (Nat.zero_le _ |>.trans_lt (Expr.projectionDepth_projector q)))
  | succ depth ih =>
      intro r q hq hdepth
      rw [nestedTo, nestedTo]
      refine .bind (.lift (Reader.specialize_yields hq.source_ready)) ?_
      rintro source ⟨hlabel, hdetached⟩
      refine .bind (.lift r.snapshot_faultless) fun row _ => ?_
      have hbuildable := hq.buildable
      rw [← hlabel] at hbuildable
      have hstart : Startable (row :: r.outer).length { q with source } := ⟨hdetached, hbuildable⟩
      refine (hX.start _ _ hstart).bind ?_
      rintro inner ⟨houter, hm⟩
      have hfits : inner.Fits := ⟨_, _, hm, houter ▸ hstart.buildable⟩
      have hle : inner.materializer.nesting ≤ depth := by
        have hprojector := Expr.projectionDepth_projector q
        have hnesting := Materializer.nesting_le hm
        dsimp only at hnesting
        omega
      exact (collectWith_guarded hX ih hfits hle _).bind fun vs _ => .pure trivial

/-- The next item of a reader is read alike. -/
theorem next_alike (hX : X.Upholds X' Inv) (hr : r.Fits) :
    RunsAlike Inv (X.next r) (X'.next r) (ItemFits r) :=
  nextWith_alike hX (nestedTo_guarded hX _) hr le_rfl

end Executor

/-! Providers -/

/-- Each entry is the materializer of its key. -/
def MaterializerCache.IsSound (c : MaterializerCache) : Prop :=
  ∀ x ∈ c.entries, Materializer.ofExpr x.1.1 x.1.2 = .ok x.2.materializer

namespace MaterializerCache

variable {c : MaterializerCache} {p : Projection Expr}

theorem isSound_empty : IsSound {} := List.forall_mem_nil _

/-- What is found or built is the materializer of the projection, and the cache stays sound. -/
theorem IsSound.getOrBuild {x : Compiled × MaterializerCache} (hc : c.IsSound)
    (h : c.getOrBuild p = .ok x) :
    Materializer.build p = .ok x.1.materializer ∧ x.2.IsSound := by
  unfold MaterializerCache.getOrBuild at h
  split at h
  next compiled hlookup =>
    cases h
    exact ⟨hc _ (mem_of_lookup hlookup), hc⟩
  next =>
    simp only [build, bind_eq_ok, pure_eq_ok] at h
    obtain ⟨_, ⟨m, hm, rfl⟩, rfl⟩ := h
    refine ⟨hm, fun x hx => ?_⟩
    rcases List.mem_append.mp hx with hx | hx
    · exact hc x hx
    · rw [List.mem_singleton.mp hx]
      exact hm

/-- Nothing fails for a projection that has a materializer. -/
theorem getOrBuild_ok (hp : ∃ m, Materializer.build p = .ok m) : ∃ x, c.getOrBuild p = .ok x := by
  obtain ⟨m, hm⟩ := hp
  unfold getOrBuild build
  split
  · exact ⟨_, rfl⟩
  · rw [hm]
    exact ⟨_, rfl⟩

end MaterializerCache

/-- The row source fails only for reasons of its own. -/
structure RowSource.IsFaultless {σ : Type} (source : RowSource σ) : Prop where
  execute : ∀ sql s, Faultless ((source.execute sql).run.run s).1
  beforeRead : ∀ s, Faultless (source.beforeRead.run.run s).1

/-- Starts a bound query only if its select depends on no row around it and its projector has a
materializer; what is done otherwise is given. -/
def Executor.guarded {σ : Type} (X : Executor σ)
    (other : Projection Expr → List Row → Action σ Reader) : Executor σ :=
  { X with start := fun p outer =>
      if (Expr.select p.source).nodes.all Expr.isDetached && (Materializer.build p).isOk then
        X.start p outer
      else other p outer }

namespace Provider

variable {σ : Type} {P : Provider σ}

/-- The state of a provider that keeps a sound cache. -/
def IsSound (s : ProviderState σ) : Prop := s.cache.IsSound

theorem onSource_guarded {α : Type} {a : Action σ α} (h : ∀ s, Faultless (a.run.run s).1) :
    Guarded IsSound (onSource a) (onSource a) fun _ => True :=
  runsAlike_iff.mpr fun s hs => ⟨rfl, hs, h s.rows⟩

theorem send_guarded (hsource : P.source.IsFaultless) (sql : String) :
    Guarded IsSound (P.send sql) (P.send sql) fun _ => True := by
  refine Guarded.tryCatch (onSource_guarded (hsource.execute sql)) fun e he => ?_
  exact RunsAlike.pure he

/-- A projection that has a materializer is given it, from the cache or not. -/
theorem materializer_ok {p : Projection Expr} (hp : ∃ m, Materializer.build p = .ok m)
    (s : ProviderState σ) : ∃ m t, (P.materializer p).run.run s = (.ok m, t) ∧
      (IsSound s → Materializer.build p = .ok m ∧ IsSound t) := by
  unfold materializer
  split
  · obtain ⟨⟨compiled, cache⟩, hx⟩ := MaterializerCache.getOrBuild_ok (c := s.cache) hp
    let rest (x : Except Error (Compiled × MaterializerCache)) :
        Action (ProviderState σ) Materializer := do
      let built ← x
      set { s with cache := built.2 }
      return built.1.materializer
    refine ⟨compiled.materializer, { s with cache }, ?_, fun hs => hs.getOrBuild hx⟩
    show (rest (s.cache.getOrBuild p)).run.run s = _
    rw [hx]
    rfl
  · obtain ⟨m, hm⟩ := hp
    rw [hm]
    exact ⟨m, s, rfl, fun hs => ⟨rfl, hs⟩⟩

theorem materializer_guarded {p : Projection Expr} (hp : ∃ m, Materializer.build p = .ok m) :
    Guarded IsSound (P.materializer p) (P.materializer p)
      fun m => Materializer.build p = .ok m := by
  rw [Guarded, runsAlike_iff]
  intro s hs
  obtain ⟨m, t, hrun, hsound⟩ := materializer_ok (P := P) hp s
  rw [hrun]
  exact ⟨rfl, (hsound hs).2, (hsound hs).1⟩

/-- What can be started is started, with the materializer of its projector. -/
theorem executeProjection_guarded (hsource : P.source.IsFaultless) {p : Projection Expr}
    (hp : ∃ m, Materializer.build p = .ok m) (outer : List Row) :
    Guarded IsSound (P.executeProjection p outer) (P.executeProjection p outer) fun r =>
      r.outer = outer ∧ Materializer.build p = .ok r.materializer := by
  have hplan : Guarded IsSound (P.plan p) (P.plan p) fun plan =>
      Materializer.build p = .ok plan.materializer := by
    refine .bind (.lift (Sql.format_faultless (.select p.source))) fun sql _ => ?_
    exact (materializer_guarded hp).bind fun m hm => .pure hm
  refine hplan.bind fun plan hm => ?_
  exact (send_guarded hsource plan.sql).bind fun rows _ => .pure ⟨rfl, hm⟩

theorem executor_upholds (hsource : P.source.IsFaultless)
    (other : Projection Expr → List Row → Action (ProviderState σ) Reader) :
    P.executor.Upholds (P.executor.guarded other) IsSound where
  start p outer hp := by
    obtain ⟨m, hm⟩ := hp.buildable.ofExpr_ok
    have hready : ((Expr.select p.source).nodes.all Expr.isDetached &&
        (Materializer.build p).isOk) = true := by
      have hbuild : Materializer.build p = .ok m := hm
      rw [hbuild, Bool.and_eq_true, List.all_eq_true]
      exact ⟨hp.detached, rfl⟩
    have hstart : (P.executor.guarded other).start p outer = P.executor.start p outer :=
      if_pos hready
    rw [hstart]
    exact executeProjection_guarded hsource ⟨m, hm⟩ outer
  beforeRead := onSource_guarded hsource.beforeRead
  release := rfl
  keeps _ hs := hs

/-- A bound query that is ready can be started. -/
theorem startable_of_ready {p : Projection Expr} (h : p.Ready 0) : Startable 0 p := by
  refine ⟨fun x hx => ?_, h.buildable⟩
  have hready := h.source_ready x hx
  cases x with
  | outerRow row =>
      have hdepth : row.depth < 0 := of_decide_eq_true hready
      exact absurd hdepth (Nat.not_lt_zero _)
  | call => cases hready
  | _ => rfl

end Provider

/-! Folding keeps a query closed -/

theorem Expr.foldLocal_isClosed {e e' : Expr} {ids : List Nat} (h : e.isClosed ids)
    (hfold : e.foldLocal = .ok e') : e'.isClosed ids := by
  induction e using Expr.children_induction generalizing e' ids with
  | step e ih =>
      rcases foldWith_cases hfold with ⟨-, hnode⟩ | ⟨-, halike⟩
      · obtain ⟨v, t, rfl⟩ := foldNode_eq_ok hnode
        exact isClosed_of_children (by simp) (by simp) rfl (List.forall_mem_nil _)
      · by_cases hlambda : ∃ params body, e = .lambda params body
        · obtain ⟨params, body, rfl⟩ := hlambda
          obtain ⟨hfresh, hbody⟩ := isClosed_lambda.mp h
          cases halike with
          | leaf hleaf => cases hleaf
          | lambda _ hc => exact isClosed_lambda.mpr ⟨hfresh, ih body hc.1 hbody hc.2⟩
        · have hchildren : ∀ c' ∈ e'.children, c'.isClosed ids := by
            intro c' hc'
            obtain ⟨c, hc, -, hfold⟩ := exists_of_mem_right halike.children hc'
            refine ih c hc (isClosed_child h ?_ hc) hfold
            rintro params body rfl
            exact hlambda ⟨params, body, rfl⟩
          have hcomposed := isComposed_of_isClosed h
          cases halike with
          | leaf => exact h
          | lambda params => exact absurd ⟨params, _, rfl⟩ hlambda
          | _ => exact isClosed_of_children (by simp) (by simp) hcomposed hchildren

namespace Provider

variable {σ : Type} {P : Provider σ} {e : Expr}

/-- The result of preparing a query can be started. -/
theorem prepare_guarded (hclosed : e.isClosed []) (hindexed : ∀ x ∈ e.nodes, x.isIndexed) :
    Guarded IsSound (P.prepare e) (P.prepare e) fun plan =>
      Startable 0 plan.projection ∧ Materializer.build plan.projection = .ok plan.materializer := by
  have hfold : Faultless e.foldLocal := Expr.foldWith_faultless hindexed
  refine .bind (.lift hfold.result) ?_
  rintro e' ⟨he', -⟩
  have hclosed' := Expr.foldLocal_isClosed hclosed he'
  have hbind : Faultless (Binding.bind P.catalog P.settings.identifierCase e') :=
    Binding.bind_faultless (Expr.nodes_isComposed hclosed')
  refine .bind (.lift hbind.result) ?_
  rintro p ⟨hp, -⟩
  have hstart := startable_of_ready (Binding.bind_ready hclosed' hp)
  refine .bind (.lift (Sql.format_faultless (.select p.source))) fun sql _ => ?_
  exact (materializer_guarded hstart.buildable.ofExpr_ok).bind fun m hm => .pure ⟨hstart, hm⟩

theorem execute_guarded (hsource : P.source.IsFaultless) (hclosed : e.isClosed [])
    (hindexed : ∀ x ∈ e.nodes, x.isIndexed) :
    Guarded IsSound (P.execute e) (P.execute e) Reader.Fits := by
  refine (prepare_guarded hclosed hindexed).bind ?_
  rintro plan ⟨hstart, hm⟩
  refine (send_guarded hsource plan.sql).bind fun rows _ => .pure ?_
  exact ⟨_, _, hm, hstart.buildable⟩

/-- The readers that running a query leads to, with the states in which they are next used. Between
two reads the provider may have run other queries. -/
inductive Reaches (P : Provider σ) (e : Expr) : Reader → ProviderState σ → Prop
  | execute {s s' r} (hs : IsSound s) (h : (P.execute e).run.run s = (.ok r, s')) : Reaches P e r s'
  | next {r s item r' s'} (hr : Reaches P e r s)
      (h : (P.executor.next r).run s = ((item, r'), s')) : Reaches P e r' s'
  | meanwhile {r s s'} (hr : Reaches P e r s) (hs : IsSound s') : Reaches P e r s'

theorem Reaches.fits {r : Reader} {s : ProviderState σ} (hr : Reaches P e r s)
    (hsource : P.source.IsFaultless) (hclosed : e.isClosed [])
    (hindexed : ∀ x ∈ e.nodes, x.isIndexed) : r.Fits ∧ IsSound s := by
  induction hr with
  | execute hs h =>
      obtain ⟨-, hinv, hfits⟩ :=
        runsAlike_iff.mp (execute_guarded hsource hclosed hindexed) _ hs
      rw [h] at hinv hfits
      exact ⟨hfits, hinv⟩
  | next _ h ih =>
      obtain ⟨-, hinv, hitem⟩ := runsAlike_iff.mp (Executor.next_alike
        (executor_upholds hsource fun p outer => P.executor.start p outer) ih.1) _ ih.2
      rw [h] at hinv hitem
      exact ⟨hitem.fits ih.1, hinv⟩
  | meanwhile _ hs ih => exact ⟨ih.1, hs⟩

/-- While a closed query is prepared, run and read, no error of class internal occurs. Once it is
bound, its projector has a materializer. No select that depends on a row around it is ever written
as text, and no projector is met that has no materializer: whatever were done in such a case, every
read would be the same. -/
theorem internal_errors_unreachable (hsource : P.source.IsFaultless) (hclosed : e.isClosed [])
    (hindexed : ∀ x ∈ e.nodes, x.isIndexed)
    (other : Projection Expr → List Row → Action (ProviderState σ) Reader) :
    (∀ s, IsSound s →
      Faultless ((P.prepare e).run.run s).1 ∧ Faultless ((P.execute e).run.run s).1) ∧
    (∀ q p, q = e ∨ e.foldLocal = .ok q →
      Binding.bind P.catalog P.settings.identifierCase q = .ok p →
        (∃ m, Materializer.build p = .ok m) ∧
          ∀ row, .outerRow row ∉ (Expr.select p.source).nodes) ∧
    ∀ r s, Reaches P e r s →
      (∀ item, ((P.executor.next r).run s).1.1 = some item → Faultless item) ∧
        ((P.executor.guarded other).next r).run s = (P.executor.next r).run s := by
  refine ⟨fun s hs => ⟨?_, ?_⟩, fun q p hq hp => ?_, fun r s hr => ?_⟩
  · exact (runsAlike_iff.mp (prepare_guarded hclosed hindexed) s hs).2.2.imp fun _ _ => trivial
  · exact (runsAlike_iff.mp (execute_guarded hsource hclosed hindexed) s hs).2.2.imp
      fun _ _ => trivial
  · have hclosed' : q.isClosed [] := by
      rcases hq with rfl | hfold
      · exact hclosed
      · exact Expr.foldLocal_isClosed hclosed hfold
    have hstart := startable_of_ready (Binding.bind_ready hclosed' hp)
    refine ⟨hstart.buildable.ofExpr_ok, fun row hrow => ?_⟩
    cases hstart.detached _ hrow
  · obtain ⟨hfits, hs⟩ := hr.fits hsource hclosed hindexed
    obtain ⟨halike, -, hitem⟩ :=
      runsAlike_iff.mp (Executor.next_alike (executor_upholds hsource other) hfits) s hs
    exact ⟨hitem.faultless, halike⟩

/-- Answers every command with the same rows. -/
def always (rows : List Row) : RowSource Unit := ⟨fun _ => pure rows, pure (), id⟩

theorem internal_errors_unreachable_of_ownedItems :
    let P : Provider Unit := ⟨Binding.ownership, {}, always [[.int32 7, .text "8"], []]⟩
    ∃ r s err, P.Reaches Binding.ownedItems r s ∧
      ((P.executor.next r).run s).1.1 = some (.error err) ∧ err.kind = .outOfRange ∧
        Faultless (.error err : Except Error Value) ∧
          ((P.executor.guarded fun _ _ => throw .nestedTooDeep).next r).run s =
            (P.executor.next r).run s := by
  intro P
  have hsource : P.source.IsFaultless := ⟨fun _ _ => trivial, fun _ => trivial⟩
  have hclosed : Binding.ownedItems.isClosed [] := by decide
  have hindexed : ∀ x ∈ Binding.ownedItems.nodes, x.isIndexed := by decide
  obtain ⟨r, s, hr, err, herr, hkind⟩ : ∃ r s, P.Reaches Binding.ownedItems r s ∧
      ∃ err, ((P.executor.next r).run s).1.1 = some (.error err) ∧ err.kind = .outOfRange :=
    ⟨_, _, .execute (s := ⟨(), {}⟩) MaterializerCache.isSound_empty (by cbv), _, by cbv, by cbv⟩
  obtain ⟨hitem, halike⟩ := (internal_errors_unreachable hsource hclosed hindexed
    fun _ _ => throw .nestedTooDeep).2.2 r s hr
  exact ⟨r, s, err, hr, herr, hkind, hitem _ herr, halike⟩

end Provider

end Quarry
