import Quarry.Proofs.Reads
/-!
The places that the walk of the binder comes to: with which state a part of the expression is walked,
and which parameters are in sight there.
-/
namespace Quarry

namespace Expr

/-- The parts that are walked in the state of the expression itself, one after the other. -/
def visited : Expr → List Expr
  | .member target _ => [target]
  | .unary _ e => [e]
  | .binary _ l r => [l, r]
  | .construct _ members => members.map (·.2)
  | .call .charAt receiver args => receiver.toList ++ args
  | .call .select _ args | .call .filter _ args => args.take 1
  | .call .join _ args => args.take 2
  | .call .toList _ args => args
  | _ => []

/-- The parts that are not walked: the receiver of a query, and all of what is bound already. -/
def skipped : Expr → List Expr
  | .call .select receiver _ | .call .filter receiver _ | .call .join receiver _
  | .call .toList receiver _ => receiver.toList
  | e => if e.isBound then e.children else []

/-- The nodes of a tree outside of the parts that are not walked. -/
def walked : Expr → List Expr := fold fun e parts => e :: (parts.drop e.skipped.length).flatten

theorem mem_walked {e x : Expr} :
    x ∈ e.walked ↔ x = e ∨ ∃ c ∈ e.children.drop e.skipped.length, x ∈ c.walked := by
  rw [walked, fold_eq, ← List.map_drop, ← List.flatMap_def, List.mem_cons, List.mem_flatMap]

theorem call_mem_walked_lambda {method : Method} {receiver : Option Expr} {args : List Expr}
    {params : List Parameter} {body : Expr}
    (h : .call method receiver args ∈ (lambda params body).walked) :
    .call method receiver args ∈ body.walked := by
  rcases mem_walked.mp h with h | ⟨c, hc, h⟩
  · cases h
  · cases List.mem_singleton.mp hc
    exact h

end Expr

namespace Binding

/-- A place in the walk: the state, the parameters in sight, and those of them that may stand for
the bare columns of an existence test around the place. -/
structure Site where
  scope : Scope := {}
  ids : List Nat := []
  bare : List Nat := []

namespace Site

def after (site : Site) (scope : Scope) : Site := { site with scope }

/-- Inside a lambda whose parameter stands for `subject`. -/
def inside (site : Site) (x : Parameter) (subject : Expr) (bare : Bool) : Site where
  scope := site.scope.withBound x.id subject
  ids := x.id :: site.ids
  bare := if bare then x.id :: site.bare else site.bare

end Site

/-- `Comes site e site' c`: the walk of `e` from `site` comes to walk `c` at `site'`. A parameter may
stand for bare columns if it is that of an existence test, or if it ranges over a query in which such
a parameter occurs. -/
inductive Comes (catalog : Catalog) (style : IdentifierCase) : Site → Expr → Site → Expr → Prop
  | here {site e} : Comes catalog style site e site e
  | part {site e before c after rs s site' d} (hparts : e.visited = before ++ c :: after)
      (hrun : (before.mapM (visit catalog style)).run site.scope = .ok (rs, s))
      (h : Comes catalog style (site.after s) c site' d) : Comes catalog style site e site' d
  | element {site method receiver source x body p s site' d} (hm : method = .select ∨ method = .filter)
      (hs : (visit catalog style source).run site.scope = .ok (.projection p, s))
      (h : Comes catalog style ((site.after s).inside x p.projector (source.mentions site.bare))
        body site' d) :
      Comes catalog style site (.call method receiver [source, .lambda [x] body]) site' d
  | leftKey {site receiver left right x leftKey rightKey result p q s₁ s₂ site' d}
      (hl : (visit catalog style left).run site.scope = .ok (.projection p, s₁))
      (hr : (visit catalog style right).run s₁ = .ok (.projection q, s₂))
      (h : Comes catalog style ((site.after s₂).inside x p.projector (left.mentions site.bare))
        leftKey site' d) :
      Comes catalog style site
        (.call .join receiver [left, right, .lambda [x] leftKey, rightKey, result]) site' d
  | rightKey {site receiver left right x leftKey y rightKey result p q a s₁ s₂ s₃ site' d}
      (hl : (visit catalog style left).run site.scope = .ok (.projection p, s₁))
      (hr : (visit catalog style right).run s₁ = .ok (.projection q, s₂))
      (ha : (visit catalog style leftKey).run (s₂.withBound x.id p.projector) = .ok (a, s₃))
      (h : Comes catalog style ((site.after s₃).inside y q.projector (right.mentions site.bare))
        rightKey site' d) :
      Comes catalog style site
        (.call .join receiver [left, right, .lambda [x] leftKey, .lambda [y] rightKey, result])
        site' d
  | result {site receiver left right x leftKey y rightKey x' y' result p q a b s₁ s₂ s₃ s₄ site' d}
      (hl : (visit catalog style left).run site.scope = .ok (.projection p, s₁))
      (hr : (visit catalog style right).run s₁ = .ok (.projection q, s₂))
      (ha : (visit catalog style leftKey).run (s₂.withBound x.id p.projector) = .ok (a, s₃))
      (hb : (visit catalog style rightKey).run (s₃.withBound y.id q.projector) = .ok (b, s₄))
      (h : Comes catalog style (((site.after s₄).inside x' p.projector (left.mentions site.bare)).inside
        y' q.projector (right.mentions site.bare)) result site' d) :
      Comes catalog style site
        (.call .join receiver
          [left, right, .lambda [x] leftKey, .lambda [y] rightKey, .lambda [x', y'] result]) site' d
  | test {site method function entity t x body site' d} (hm : IsExistence method function)
      (ht : catalog.table entity = .ok t)
      (h : Comes catalog style (site.inside x (.construct t.recordType (tableColumns t "")) true)
        body site' d) :
      Comes catalog style site (.call method (some (.collection entity)) [.lambda [x] body]) site' d

variable {catalog : Catalog} {style : IdentifierCase} {s s' : Scope} {e r c : Expr}

theorem run_mapM_cons {cs rs : List Expr} :
    ((c :: cs).mapM (visit catalog style)).run s = .ok (rs, s') ↔
      ∃ r s₁ rs', (visit catalog style c).run s = .ok (r, s₁) ∧
        (cs.mapM (visit catalog style)).run s₁ = .ok (rs', s') ∧ rs = r :: rs' := by
  rw [List.mapM_cons]
  simp only [run_bind_eq_ok, run_pure_eq_ok]
  constructor
  · rintro ⟨r, s₁, hr, rs', s₂, hrs, rfl, rfl⟩
    exact ⟨r, s₁, rs', hr, hrs, rfl⟩
  · rintro ⟨r, s₁, rs', hr, hrs, rfl⟩
    exact ⟨r, s₁, hr, rs', s', hrs, rfl, rfl⟩

theorem run_mapM_single (h : (visit catalog style c).run s = .ok (r, s')) :
    ([c].mapM (visit catalog style)).run s = .ok ([r], s') :=
  run_mapM_cons.mpr ⟨r, s', [], h, rfl, rfl⟩

/-- What follows the first parts is walked from the state that they lead to. -/
theorem exists_run_of_mapM {before after rs rs' : List Expr} {s₁ : Scope}
    (hbefore : (before.mapM (visit catalog style)).run s = .ok (rs, s₁))
    (h : ((before ++ c :: after).mapM (visit catalog style)).run s = .ok (rs', s')) :
    ∃ r s₂, (visit catalog style c).run s₁ = .ok (r, s₂) := by
  induction before generalizing s rs rs' with
  | nil =>
      cases hbefore
      obtain ⟨r, s₂, _, hr, -⟩ := run_mapM_cons.mp h
      exact ⟨r, s₂, hr⟩
  | cons b before ih =>
      obtain ⟨x, t, xs, hx, hxs, -⟩ := run_mapM_cons.mp hbefore
      obtain ⟨y, u, ys, hy, hys, -⟩ := run_mapM_cons.mp h
      cases hx.symm.trans hy
      exact ih hxs hys

namespace Comes

variable {site site' : Site} {d : Expr} {after : List Expr}

theorem first (hparts : e.visited = [] ++ c :: after) (h : Comes catalog style site c site' d) :
    Comes catalog style site e site' d :=
  .part hparts (run_pure_eq_ok.mpr ⟨rfl, rfl⟩) h

theorem second {b : Expr} (hparts : e.visited = [b] ++ c :: after)
    (hb : Walks catalog style site.scope b r s) (h : Comes catalog style (site.after s) c site' d) :
    Comes catalog style site e site' d :=
  .part hparts (run_mapM_single hb.run) h

/-- The places in the later members of a record are places in the record. -/
theorem later {t : DataType} {name : String} {ms : List (String × Expr)}
    (he : Walks catalog style site.scope e r s)
    (h : Comes catalog style (site.after s) (.construct t ms) site' d) (hd : d ≠ .construct t ms) :
    Comes catalog style site (.construct t ((name, e) :: ms)) site' d := by
  cases h with
  | here => exact absurd rfl hd
  | @part _ _ before c after rs s₁ _ _ hparts hrun h =>
      have hparts' : (Expr.construct t ((name, e) :: ms)).visited = (e :: before) ++ c :: after :=
        congrArg (e :: ·) hparts
      exact .part hparts' (run_mapM_cons.mpr ⟨r, s, rs, he.run, hrun, rfl⟩) h

end Comes

/-- A walk that succeeds has walked all visited parts. -/
theorem Walks.visited (h : Walks catalog style s e r s') :
    ∃ rs s₁, (e.visited.mapM (visit catalog style)).run s = .ok (rs, s₁) := by
  induction h with
  | constant | captured | parameter | collection | constructNil => exact ⟨[], _, rfl⟩
  | @bound s e h =>
      cases e with
      | table | column | select | join | projection | function | subquery => exact ⟨[], s, rfl⟩
      | _ => cases h
  | member ht _ _ => exact ⟨_, _, run_mapM_single ht.run⟩
  | unary he _ => exact ⟨_, _, run_mapM_single he.run⟩
  | binary ha hb _ _ => exact ⟨_, _, run_mapM_cons.mpr ⟨_, _, _, ha.run, run_mapM_single hb.run, rfl⟩⟩
  | constructCons he _ _ ih =>
      obtain ⟨rs, s₁, hrs⟩ := ih
      exact ⟨_, s₁, run_mapM_cons.mpr ⟨_, _, _, he.run, hrs, rfl⟩⟩
  | charAt hs hi _ _ _ =>
      exact ⟨_, _, run_mapM_cons.mpr ⟨_, _, _, hs.run, run_mapM_single hi.run, rfl⟩⟩
  | select hs _ _ _ | filter hs _ _ _ | toList hs _ => exact ⟨_, _, run_mapM_single hs.run⟩
  | join hl hr _ _ _ _ _ _ _ _ =>
      exact ⟨_, _, run_mapM_cons.mpr ⟨_, _, _, hl.run, run_mapM_single hr.run, rfl⟩⟩
  | existence hm _ _ _ => cases hm <;> exact ⟨[], _, rfl⟩

/-- A walk that succeeds has come to every call that is not skipped. -/
theorem Walks.comes {method : Method} {receiver : Option Expr} {args : List Expr}
    (h : Walks catalog style s e r s') (site : Site) (hsite : site.scope = s)
    (hcall : .call method receiver args ∈ e.walked) :
    ∃ site', Comes catalog style site e site' (.call method receiver args) := by
  induction h generalizing site with
  | constant | captured | parameter | collection | constructNil =>
      rcases Expr.mem_walked.mp hcall with h | ⟨_, hc, _⟩
      · cases h
      · cases hc
  | @bound s e h =>
      rcases Expr.mem_walked.mp hcall with rfl | ⟨c, hc, -⟩
      · cases h
      · have hskipped : e.skipped = e.children := by
          cases e with
          | table | column | select | join | projection | function | subquery => rfl
          | _ => cases h
        rw [hskipped, List.drop_length] at hc
        cases hc
  | member _ _ ih | unary _ ih =>
      rcases Expr.mem_walked.mp hcall with h | ⟨c, hc, hmem⟩
      · cases h
      · cases List.mem_singleton.mp hc
        obtain ⟨site', h⟩ := ih site hsite hmem
        exact ⟨site', .first rfl h⟩
  | binary ha _ iha ihb =>
      subst hsite
      rcases Expr.mem_walked.mp hcall with h | ⟨c, hc, hmem⟩
      · cases h
      · rcases List.mem_pair.mp hc with rfl | rfl
        · obtain ⟨site', h⟩ := iha site rfl hmem
          exact ⟨site', .first rfl h⟩
        · obtain ⟨site', h⟩ := ihb (site.after _) rfl hmem
          exact ⟨site', .second rfl ha h⟩
  | @constructCons _ t _ _ ms _ _ _ _ he _ ihe ihms =>
      subst hsite
      rcases Expr.mem_walked.mp hcall with h | ⟨c, hc, hmem⟩
      · cases h
      · rcases List.mem_cons.mp hc with rfl | hc
        · obtain ⟨site', h⟩ := ihe site rfl hmem
          exact ⟨site', .first rfl h⟩
        · have hms : .call method receiver args ∈ (Expr.construct t ms).walked :=
            Expr.mem_walked.mpr (.inr ⟨c, hc, hmem⟩)
          obtain ⟨site', h⟩ := ihms (site.after _) rfl hms
          exact ⟨site', h.later he (by simp)⟩
  | charAt hs _ _ ihs ihi =>
      subst hsite
      rcases Expr.mem_walked.mp hcall with h | ⟨c, hc, hmem⟩
      · exact ⟨site, h ▸ .here⟩
      · rcases List.mem_pair.mp hc with rfl | rfl
        · obtain ⟨site', h⟩ := ihs site rfl hmem
          exact ⟨site', .first rfl h⟩
        · obtain ⟨site', h⟩ := ihi (site.after _) rfl hmem
          exact ⟨site', .second rfl hs h⟩
  | select hs _ ihs ihb | filter hs _ ihs ihb =>
      subst hsite
      rcases Expr.mem_walked.mp hcall with h | ⟨c, hc, hmem⟩
      · exact ⟨site, h ▸ .here⟩
      · rw [Expr.skipped, Expr.children, List.drop_left] at hc
        rcases List.mem_pair.mp hc with rfl | rfl
        · obtain ⟨site', h⟩ := ihs site rfl hmem
          exact ⟨site', .first rfl h⟩
        · obtain ⟨site', h⟩ :=
            ihb ((site.after _).inside _ _ _) rfl (Expr.call_mem_walked_lambda hmem)
          exact ⟨site', .element (by simp) hs.run h⟩
  | join hl hr ha hb _ ihl ihr iha ihb ihc =>
      subst hsite
      rcases Expr.mem_walked.mp hcall with h | ⟨c, hc, hmem⟩
      · exact ⟨site, h ▸ .here⟩
      · rw [Expr.skipped, Expr.children, List.drop_left] at hc
        simp only [List.mem_cons, List.not_mem_nil, or_false] at hc
        rcases hc with rfl | rfl | rfl | rfl | rfl
        · obtain ⟨site', h⟩ := ihl site rfl hmem
          exact ⟨site', .first rfl h⟩
        · obtain ⟨site', h⟩ := ihr (site.after _) rfl hmem
          exact ⟨site', .second rfl hl h⟩
        · obtain ⟨site', h⟩ :=
            iha ((site.after _).inside _ _ _) rfl (Expr.call_mem_walked_lambda hmem)
          exact ⟨site', .leftKey hl.run hr.run h⟩
        · obtain ⟨site', h⟩ :=
            ihb ((site.after _).inside _ _ _) rfl (Expr.call_mem_walked_lambda hmem)
          exact ⟨site', .rightKey hl.run hr.run ha.run h⟩
        · obtain ⟨site', h⟩ := ihc (((site.after _).inside _ _ _).inside _ _ _) rfl
            (Expr.call_mem_walked_lambda hmem)
          exact ⟨site', .result hl.run hr.run ha.run hb.run h⟩
  | toList _ ih =>
      rcases Expr.mem_walked.mp hcall with h | ⟨c, hc, hmem⟩
      · exact ⟨site, h ▸ .here⟩
      · rw [Expr.skipped, Expr.children, List.drop_left] at hc
        cases List.mem_singleton.mp hc
        obtain ⟨site', h⟩ := ih site hsite hmem
        exact ⟨site', .first rfl h⟩
  | existence hm ht _ ih =>
      subst hsite
      rcases Expr.mem_walked.mp hcall with h | ⟨c, hc, hmem⟩
      · exact ⟨site, h ▸ .here⟩
      · rcases List.mem_pair.mp (List.mem_of_mem_drop hc) with rfl | rfl
        · rcases Expr.mem_walked.mp hmem with h | ⟨_, hd, _⟩
          · cases h
          · cases hd
        · obtain ⟨site', h⟩ := ih (site.inside _ _ _) rfl (Expr.call_mem_walked_lambda hmem)
          exact ⟨site', .test hm ht h⟩

/-- Where the walk succeeds, it succeeds at every place that it comes to. -/
theorem Comes.walks {site site' : Site} (h : Comes catalog style site e site' c)
    (hw : Walks catalog style site.scope e r s') :
    ∃ r' s'', Walks catalog style site'.scope c r' s'' := by
  induction h generalizing r s' with
  | here => exact ⟨r, s', hw⟩
  | part hparts hrun _ ih =>
      obtain ⟨rs, s₁, hall⟩ := hw.visited
      rw [hparts] at hall
      obtain ⟨x, s₂, hx⟩ := exists_run_of_mapM hrun hall
      exact ih (walks_iff.mpr hx)
  | element hm hs _ ih =>
      rcases hm with rfl | rfl
      · cases hw with
        | bound h => cases h
        | select hs' hb =>
            cases hs.symm.trans hs'.run
            exact ih hb
      · cases hw with
        | bound h => cases h
        | filter hs' hb =>
            cases hs.symm.trans hs'.run
            exact ih hb
  | leftKey hl hr _ ih =>
      cases hw with
      | bound h => cases h
      | join hl' hr' ha' hb' hc' =>
          cases hl.symm.trans hl'.run
          cases hr.symm.trans hr'.run
          exact ih ha'
  | rightKey hl hr ha _ ih =>
      cases hw with
      | bound h => cases h
      | join hl' hr' ha' hb' hc' =>
          cases hl.symm.trans hl'.run
          cases hr.symm.trans hr'.run
          cases ha.symm.trans ha'.run
          exact ih hb'
  | result hl hr ha hb _ ih =>
      cases hw with
      | bound h => cases h
      | join hl' hr' ha' hb' hc' =>
          cases hl.symm.trans hl'.run
          cases hr.symm.trans hr'.run
          cases ha.symm.trans ha'.run
          cases hb.symm.trans hb'.run
          exact ih hc'
  | test hm ht _ ih =>
      cases hw with
      | bound h => cases hm <;> cases h
      | charAt => cases hm
      | toList => cases hm
      | existence _ ht' hb =>
          cases ht.symm.trans ht'
          exact ih hb

/-! Joins -/

/-- The sources of every join that the walk comes to are bound to what is related by `J`. -/
def JoinsMeet (catalog : Catalog) (style : IdentifierCase)
    (J : Projection Expr → Projection Expr → Prop) (site : Site) (e : Expr) : Prop :=
  ∀ site' receiver left right rest p q s₁ s₂,
    Comes catalog style site e site' (.call .join receiver (left :: right :: rest)) →
    Walks catalog style site'.scope left (.projection p) s₁ →
    Walks catalog style s₁ right (.projection q) s₂ → J p q

theorem JoinsMeet.lift {J : Projection Expr → Projection Expr → Prop} {site site₁ : Site}
    (h : JoinsMeet catalog style J site e)
    (hcomes : ∀ site' receiver args, Comes catalog style site₁ c site' (.call .join receiver args) →
      Comes catalog style site e site' (.call .join receiver args)) :
    JoinsMeet catalog style J site₁ c :=
  fun site' receiver left right rest p q s₁ s₂ hc =>
    h site' receiver left right rest p q s₁ s₂ (hcomes site' receiver _ hc)

theorem joinsMeet_of_forall {J : Projection Expr → Projection Expr → Prop} (h : ∀ p q, J p q)
    (site : Site) (e : Expr) : JoinsMeet catalog style J site e :=
  fun _ _ _ _ _ p q _ _ _ _ _ => h p q

/-! What the parameters in sight stand for -/

/-- A property of what parameters stand for, where so many labels are given out; `bare` is whether
it may hold columns without a label. What is bound has it if all that is read has it. -/
structure HandedOn (catalog : Catalog) (style : IdentifierCase) (Good : Bool → Nat → Expr → Prop) :
    Prop where
  mono {bare n m v} : n ≤ m → Good bare n v → Good bare m v
  bare {n v} : Good false n v → Good true n v
  member {bare n v name x} : memberOf v name = .ok x → Good bare n v → Good bare n x
  projector {bare n p} : Good bare n (.projection p) → Good bare n p.projector
  record {n} {t : Table} : Good true n (.construct t.recordType (tableColumns t ""))
  binds {bare env n e r m} : Binds catalog style env n e r m →
    (∀ x ∈ reads e env, Good bare n x) → Good bare m r

/-- The parameters in sight have the property. -/
def Site.Holds (Good : Bool → Nat → Expr → Prop) (site : Site) : Prop :=
  ∀ id ∈ site.ids, ∃ v, site.scope.bound.lookup id = some v ∧
    Good (decide (id ∈ site.bare)) site.scope.labels v

namespace Site.Holds

variable {Good : Bool → Nat → Expr → Prop} {site : Site} {v x : Expr}

theorem agrees (h : site.Holds Good) : Agrees site.ids site.scope.bound site.scope := by
  intro id hid
  obtain ⟨v, hv, -⟩ := h id hid
  exact ⟨v, hv, hv⟩

theorem after (h : site.Holds Good) (laws : HandedOn catalog style Good)
    (hkeeps : Keeps site.ids site.scope s) (hle : site.scope.labels ≤ s.labels) :
    (site.after s).Holds Good := by
  intro id hid
  obtain ⟨v, hv, hgood⟩ := h id hid
  exact ⟨v, (hkeeps id hid).trans hv, laws.mono hle hgood⟩

theorem after_walk (h : site.Holds Good) (laws : HandedOn catalog style Good)
    (hw : Walks catalog style site.scope e r s) (hclosed : e.isClosed site.ids) :
    (site.after s).Holds Good := by
  obtain ⟨hbinds, hkeeps⟩ := hw.binds hclosed h.agrees
  exact h.after laws hkeeps hbinds.le

/-- After the body of a lambda, the parameters outside stand for what they stood for. -/
theorem after_lambda (h : site.Holds Good) (laws : HandedOn catalog style Good) {x : Parameter}
    {body : Expr} (hlambda : (Expr.lambda [x] body).isClosed site.ids)
    (hw : Walks catalog style (site.scope.withBound x.id v) body r s) :
    (site.after s).Holds Good := by
  obtain ⟨hid, hbody⟩ := Expr.isClosed_lambda_one.mp hlambda
  obtain ⟨hbinds, hkeeps⟩ := hw.binds hbody h.agrees.withBound
  exact h.after laws (hkeeps.withBound hid) hbinds.le

theorem inside (h : site.Holds Good) (laws : HandedOn catalog style Good) (x : Parameter)
    {bare : Bool} (hv : Good bare site.scope.labels v) : (site.inside x v bare).Holds Good := by
  intro id hid
  change ∃ w, (site.scope.withBound x.id v).bound.lookup id = some w ∧ _
  rw [Scope.withBound, lookup_withBound]
  by_cases heq : id = x.id
  · refine ⟨v, if_pos heq, ?_⟩
    cases bare with
    | false =>
        cases hmem : decide (id ∈ (site.inside x v false).bare) with
        | false => exact hv
        | true => exact laws.bare hv
    | true =>
        have hmem : id ∈ (site.inside x v true).bare := heq ▸ List.mem_cons_self
        rw [decide_eq_true hmem]
        exact hv
  · rw [if_neg heq]
    obtain ⟨w, hw, hgood⟩ := h id ((List.mem_cons.mp hid).resolve_left heq)
    have hmem : id ∈ (site.inside x v bare).bare ↔ id ∈ site.bare := by
      cases bare with
      | false => exact Iff.rfl
      | true => exact List.mem_cons.trans (or_iff_right heq)
    rw [decide_eq_decide.mpr hmem]
    exact ⟨w, hw, hgood⟩

theorem of_reads (h : site.Holds Good) (laws : HandedOn catalog style Good)
    (hclosed : e.isClosed site.ids) (hx : x ∈ reads e site.scope.bound) :
    Good (e.mentions site.bare) site.scope.labels x := by
  obtain ⟨id, hid, hmentions, v, hv, hpart⟩ := reads_closed hx hclosed
  obtain ⟨w, hw, hgood⟩ := h id hid
  cases hv.symm.trans hw
  refine hpart.holds ?_ fun _ _ _ => laws.member
  by_cases hmem : id ∈ site.bare
  · rw [Expr.mentions_mono hmentions (List.cons_subset.mpr ⟨hmem, List.nil_subset _⟩)]
    rwa [decide_eq_true hmem] at hgood
  · rw [decide_eq_false hmem] at hgood
    cases e.mentions site.bare with
    | false => exact hgood
    | true => exact laws.bare hgood

/-- What is bound at a place may hold bare columns only if a parameter that may do so occurs. -/
theorem bound (h : site.Holds Good) (laws : HandedOn catalog style Good)
    (hw : Walks catalog style site.scope e r s) (hclosed : e.isClosed site.ids) :
    Good (e.mentions site.bare) s.labels r :=
  laws.binds (hw.binds hclosed h.agrees).1 fun _ hx => h.of_reads laws hclosed hx

end Site.Holds

theorem visited_closed {ids : List Nat} (hclosed : e.isClosed ids) (hc : c ∈ e.visited) :
    c.isClosed ids := by
  cases e with
  | member | unary | binary | construct => exact Expr.isClosed_child hclosed (by simp) hc
  | call method receiver args =>
      refine Expr.isClosed_child hclosed (by simp) ?_
      cases method with
      | charAt => exact hc
      | select | filter | join => exact List.mem_append_right _ (List.mem_of_mem_take hc)
      | toList => exact List.mem_append_right _ hc
      | _ => cases hc
  | _ => cases hc

theorem keeps_of_mapM {ids : List Nat} {cs rs : List Expr}
    (h : (cs.mapM (visit catalog style)).run s = .ok (rs, s'))
    (hclosed : ∀ c ∈ cs, c.isClosed ids) {env : List (Nat × Expr)} (hs : Agrees ids env s) :
    Keeps ids s s' ∧ s.labels ≤ s'.labels := by
  induction cs generalizing s rs with
  | nil =>
      cases h
      exact ⟨fun _ _ => rfl, le_rfl⟩
  | cons c cs ih =>
      obtain ⟨r, s₁, rs', hr, hrs, -⟩ := run_mapM_cons.mp h
      obtain ⟨hbinds, hkeeps⟩ := (walks_iff.mpr hr).binds (hclosed c List.mem_cons_self) hs
      obtain ⟨hkeeps', hle⟩ :=
        ih hrs (fun d hd => hclosed d (List.mem_cons_of_mem _ hd)) (hs.keeps hkeeps)
      exact ⟨hkeeps.trans hkeeps', hbinds.le.trans hle⟩

/-- At every place that the walk of a closed expression comes to, the part that is walked is closed
for the parameters in sight, and these have the property. -/
theorem Comes.holds {Good : Bool → Nat → Expr → Prop} {site site' : Site}
    (h : Comes catalog style site e site' c) (laws : HandedOn catalog style Good)
    (hsite : site.Holds Good) (hclosed : e.isClosed site.ids) :
    site'.Holds Good ∧ c.isClosed site'.ids := by
  induction h with
  | here => exact ⟨hsite, hclosed⟩
  | @part site e before c after rs s site' d hparts hrun _ ih =>
      have hvisited : ∀ d ∈ before ++ c :: after, d.isClosed site.ids :=
        fun d hd => visited_closed hclosed (hparts ▸ hd)
      obtain ⟨hkeeps, hle⟩ :=
        keeps_of_mapM hrun (fun d hd => hvisited d (List.mem_append_left _ hd)) hsite.agrees
      exact ih (hsite.after laws hkeeps hle) (hvisited c (by simp))
  | @element site method receiver source x body p s site' d hm hs _ ih =>
      have hw := walks_iff.mpr hs
      obtain ⟨hsource, -, hbody⟩ := Expr.isClosed_ranging hclosed
      have hp := laws.projector (hsite.bound laws hw hsource)
      exact ih ((hsite.after_walk laws hw hsource).inside laws x hp) hbody
  | @leftKey site receiver left right x leftKey rightKey result p q s₁ s₂ site' d hl hr _ ih =>
      have hwl := walks_iff.mpr hl
      have hwr := walks_iff.mpr hr
      have hleft : left.isClosed site.ids := Expr.isClosed_arg hclosed (by simp)
      have hright : right.isClosed site.ids := Expr.isClosed_arg hclosed (by simp)
      have hsite₁ := hsite.after_walk laws hwl hleft
      have hsite₂ := hsite₁.after_walk laws hwr hright
      obtain ⟨-, hbody⟩ := Expr.isClosed_lambda_one.mp
        (Expr.isClosed_arg hclosed (c := .lambda [x] leftKey) (by simp))
      have hp := laws.projector (hsite.bound laws hwl hleft)
      have hle := (hwr.binds hright hsite₁.agrees).1.le
      exact ih (hsite₂.inside laws x (laws.mono hle hp)) hbody
  | @rightKey site receiver left right x leftKey y rightKey result p q a s₁ s₂ s₃ site' d hl hr ha _
      ih =>
      have hwr := walks_iff.mpr hr
      have hwa := walks_iff.mpr ha
      have hright : right.isClosed site.ids := Expr.isClosed_arg hclosed (by simp)
      have hsite₁ := hsite.after_walk laws (walks_iff.mpr hl) (Expr.isClosed_arg hclosed (by simp))
      have hsite₂ := hsite₁.after_walk laws hwr hright
      have hlambda : (Expr.lambda [x] leftKey).isClosed site.ids :=
        Expr.isClosed_arg hclosed (by simp)
      have hsite₃ := hsite₂.after_lambda laws hlambda hwa
      obtain ⟨-, hbody⟩ := Expr.isClosed_lambda_one.mp
        (Expr.isClosed_arg hclosed (c := .lambda [y] rightKey) (by simp))
      have hq := laws.projector (hsite₁.bound laws hwr hright)
      have hle := (hwa.binds (Expr.isClosed_lambda_one.mp hlambda).2 hsite₂.agrees.withBound).1.le
      exact ih (hsite₃.inside laws y (laws.mono hle hq)) hbody
  | @result site receiver left right x leftKey y rightKey x' y' result p q a b s₁ s₂ s₃ s₄ site' d
      hl hr ha hb _ ih =>
      have hwl := walks_iff.mpr hl
      have hwr := walks_iff.mpr hr
      have hwa := walks_iff.mpr ha
      have hwb := walks_iff.mpr hb
      obtain ⟨hleft, hright, hkey, hkey', -, -, hbody⟩ := Expr.isClosed_join hclosed
      have hsite₁ := hsite.after_walk laws hwl hleft
      have hsite₂ := hsite₁.after_walk laws hwr hright
      have hsite₃ := hsite₂.after_lambda laws (Expr.isClosed_lambda_one.mpr hkey) hwa
      have hsite₄ := hsite₃.after_lambda laws (Expr.isClosed_lambda_one.mpr hkey') hwb
      have hp := laws.projector (hsite.bound laws hwl hleft)
      have hq := laws.projector (hsite₁.bound laws hwr hright)
      have hle₂ := (hwr.binds hright hsite₁.agrees).1.le
      have hle₃ := (hwa.binds hkey.2 hsite₂.agrees.withBound).1.le
      have hle₄ := (hwb.binds hkey'.2 hsite₃.agrees.withBound).1.le
      have hsite₅ := (hsite₄.inside laws x' (laws.mono (hle₂.trans (hle₃.trans hle₄)) hp)).inside
        laws y' (laws.mono (hle₃.trans hle₄) hq)
      exact ih hsite₅ (Expr.isClosed_of_mem_iff hbody fun id => (List.Perm.swap _ _ _).mem_iff)
  | @test site method function entity t x body site' d hm ht _ ih =>
      obtain ⟨-, hbody⟩ := Expr.isClosed_test hclosed
      exact ih (hsite.inside laws x laws.record) hbody

end Binding

end Quarry
