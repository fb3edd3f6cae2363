import Quarry.Binding.Columns
import Quarry.Expr.Equality
import Quarry.Proofs.Nomination
/-!
What the projection of an expression through a new select yields: the output columns have distinct
names, each is declared by a part that was taken out of the expression, and where that part stood
the expression now reads the column.
-/
namespace Quarry.Binding

/-! Fresh names -/

theorem suffixed_injective (base : String) : Function.Injective (suffixed base) := by
  intro m n h
  have hne : ∀ k : Nat, suffixed base 0 ≠ suffixed base (k + 1) := by
    intro k hk
    have hlen := congrArg String.length hk
    simp only [suffixed, String.length_append] at hlen
    have hpos : 0 < (toString (k + 1)).length := Nat.length_repr_pos
    omega
  match m, n with
  | 0, 0 => rfl
  | 0, n + 1 => exact absurd h (hne n)
  | m + 1, 0 => exact absurd h.symm (hne m)
  | m + 1, n + 1 =>
      have hrepr : toString (m + 1) = toString (n + 1) := (String.append_right_inj base).mp h
      exact Nat.repr_injective hrepr

/-- More names of the sequence than are used cannot all be used. -/
theorem exists_suffixed_notMem (used : List String) (base : String) :
    ∃ n ≤ used.toFinset.card, suffixed base n ∉ used := by
  have hcard : used.toFinset.card < ((Finset.range (used.toFinset.card + 1)).map
      ⟨suffixed base, suffixed_injective base⟩).card := by
    rw [Finset.card_map, Finset.card_range]
    exact Nat.lt_succ_self _
  obtain ⟨name, hname, hfree⟩ := Finset.exists_mem_notMem_of_card_lt_card hcard
  obtain ⟨n, hn, rfl⟩ := Finset.mem_map.mp hname
  exact ⟨n, Nat.lt_succ_iff.mp (Finset.mem_range.mp hn), fun h => hfree (List.mem_toFinset.mpr h)⟩

/-- The fresh name is the first one of its sequence that is free. -/
theorem freshName_first (used : List String) (base : String) :
    ∃ n ≤ used.toFinset.card, freshName used base = suffixed base n ∧
      suffixed base n ∉ used ∧ ∀ m < n, suffixed base m ∈ used := by
  obtain ⟨bound, hbound, hfree⟩ := exists_suffixed_notMem used base
  have hexists : ∃ n, suffixed base n ∉ used := ⟨bound, hfree⟩
  have hcard : Nat.find hexists ≤ used.toFinset.card := (Nat.find_min' hexists hfree).trans hbound
  have hbefore : ∀ m < Nat.find hexists, suffixed base m ∈ used := fun m hm =>
    not_not.mp (Nat.find_min hexists hm)
  have hfind : (List.range (used.length + 1)).find? (fun m => decide (suffixed base m ∉ used)) =
      some (Nat.find hexists) := by
    rw [List.find?_range_eq_some]
    refine ⟨decide_eq_true (Nat.find_spec hexists), ?_, fun m hm => ?_⟩
    · exact List.mem_range.mpr (Nat.lt_succ_iff.mpr (hcard.trans used.toFinset_card_le))
    · simpa using hbefore m hm
  refine ⟨Nat.find hexists, hcard, ?_, Nat.find_spec hexists, hbefore⟩
  rw [freshName, List.find?_map, Function.comp_def, hfind]
  rfl

theorem freshName_notMem (used : List String) (base : String) : freshName used base ∉ used := by
  obtain ⟨n, -, hname, hfree, -⟩ := freshName_first used base
  rwa [hname]

/-! What is taken out -/

def isComputed : Expr → Bool
  | .function _ | .subquery .. => true
  | _ => false

def isProjection : Expr → Bool
  | .projection _ => true
  | _ => false

def isConstruct : Expr → Bool
  | .construct .. => true
  | _ => false

/-- Whether a node is made an output column, inside a nested projection or not. -/
def takes (sources : List String) (nested : Bool) : Expr → Bool
  | .column c => decide (c.label ∈ sources)
  | e => !nested && isComputed e

theorem stays_of_takes {sources : List String} {nested : Bool} {e : Expr}
    (h : takes sources nested e = false) : (!nested && isComputed e) = false := by
  cases e with
  | column c => exact Bool.and_false _
  | _ => exact h

theorem takes_cases {sources : List String} {nested : Bool} {e : Expr}
    (h : takes sources nested e) :
    (∃ c, e = .column c ∧ c.label ∈ sources) ∨ nested = false ∧ isComputed e := by
  cases e with
  | column c => exact .inl ⟨c, rfl, of_decide_eq_true h⟩
  | _ => exact .inr (by simpa only [takes, Bool.and_eq_true, Bool.not_eq_true'] using h)

/-- The nodes that are made output columns, from left to right. -/
def taken (sources : List String) : Expr → Bool → List Expr :=
  Expr.fold fun e parts nested =>
    if takes sources nested e then [e] else parts.flatMap (· (nested || isProjection e))

theorem taken_eq (sources : List String) (e : Expr) (nested : Bool) :
    taken sources e nested =
      if takes sources nested e then [e]
      else e.children.flatMap (taken sources · (nested || isProjection e)) := by
  rw [taken, Expr.fold_eq]
  simp only [List.flatMap_map]

/-- The expression is read as an output column of the select at `label`. -/
def Reads (label : String) (columns : List (String × Expr)) (e e' : Expr) : Prop :=
  ∃ i name, columns[i]? = some (name, e) ∧
    e' = .column ⟨label, name, i, e.staticType?.getD .null⟩

/-- What was taken out is read as a column, and all else is as it was. -/
def Moved (label : String) (sources : List String) (columns : List (String × Expr)) :
    Expr → Bool → Expr → Prop :=
  Expr.fold fun e parts nested e' =>
    if takes sources nested e then Reads label columns e e'
    else ∃ cs, List.Forall₂ (fun part c => part (nested || isProjection e) c) parts cs ∧
      e' = e.withChildren cs

variable {label : String} {sources : List String} {columns columns' : List (String × Expr)}
variable {e e' : Expr} {nested : Bool}

theorem moved_iff :
    Moved label sources columns e nested e' ↔
      if takes sources nested e then Reads label columns e e'
      else ∃ cs, List.Forall₂ (Moved label sources columns · (nested || isProjection e) ·)
        e.children cs ∧ e' = e.withChildren cs := by
  rw [Moved, Expr.fold_eq]
  simp only [List.forall₂_map_left_iff]

theorem moved_iff_reads (ht : takes sources nested e) :
    Moved label sources columns e nested e' ↔ Reads label columns e e' := by
  rw [moved_iff, if_pos ht]

theorem moved_iff_children (ht : takes sources nested e = false) :
    Moved label sources columns e nested e' ↔
      ∃ cs, List.Forall₂ (Moved label sources columns · (nested || isProjection e) ·)
        e.children cs ∧ e' = e.withChildren cs := by
  rw [moved_iff, if_neg (by simp [ht])]

/-- Induction over a move: a node is taken out, or it stays and its children are moved. -/
theorem Moved.induction
    {motive : ∀ e nested e', Moved label sources columns e nested e' → Prop}
    (taken : ∀ e nested e' (ht : takes sources nested e) (h : Reads label columns e e'),
      motive e nested e' ((moved_iff_reads ht).mpr h))
    (kept : ∀ e nested e' (_ : takes sources nested e = false)
      (h : Moved label sources columns e nested e'),
      Expr.Alike (fun c c' => ∃ h : Moved label sources columns c (nested || isProjection e) c',
        motive c (nested || isProjection e) c' h) e e' → motive e nested e' h)
    {e : Expr} {nested : Bool} {e' : Expr} (h : Moved label sources columns e nested e') :
    motive e nested e' h := by
  induction e using Expr.children_induction generalizing nested e' with
  | step e ih =>
      cases ht : takes sources nested e with
      | true => exact taken e nested e' ht ((moved_iff_reads ht).mp h)
      | false =>
          refine kept e nested e' ht h ?_
          obtain ⟨cs, hcs, rfl⟩ := (moved_iff_children ht).mp h
          refine Expr.alike_withChildren ?_
          exact ((List.forall₂_and_left _ _).mpr ⟨fun c hc => hc, hcs⟩).imp
            fun c c' hc => ⟨hc.2, ih c hc.1 hc.2⟩

theorem Moved.alike (ht : takes sources nested e = false)
    (h : Moved label sources columns e nested e') :
    Expr.Alike (Moved label sources columns · (nested || isProjection e) ·) e e' := by
  obtain ⟨cs, hcs, rfl⟩ := (moved_iff_children ht).mp h
  exact Expr.alike_withChildren hcs

theorem Moved.isConstruct_eq (h : Moved label sources columns e nested e') :
    isConstruct e' = isConstruct e := by
  induction h using Moved.induction with
  | taken e nested e' ht h =>
      obtain ⟨i, name, -, rfl⟩ := h
      cases e <;> simp_all [takes, isComputed, isConstruct]
  | kept e nested e' ht _ h => cases h <;> rfl

theorem Moved.isProjection_eq (h : Moved label sources columns e nested e') :
    isProjection e' = isProjection e := by
  induction h using Moved.induction with
  | taken e nested e' ht h =>
      obtain ⟨i, name, -, rfl⟩ := h
      cases e <;> simp_all [takes, isComputed, isProjection]
  | kept e nested e' ht _ h => cases h <;> rfl

theorem moved_construct {t : DataType} {ms ms' : List (String × Expr)}
    (h : List.Forall₂ (fun a b => a.1 = b.1 ∧ Moved label sources columns a.2 nested b.2) ms ms') :
    Moved label sources columns (.construct t ms) nested (.construct t ms') := by
  refine (moved_iff_children (by simp [takes, isComputed])).mpr ⟨ms'.map (·.2), ?_, ?_⟩
  · have hproj : isProjection (.construct t ms) = false := rfl
    rw [hproj, Bool.or_false]
    exact Expr.map_snd_rel (R := (Moved label sources columns · nested ·)) h
  · have hfill : (Expr.fillMembers ms (ms'.map (·.2))).1 = ms' := by
      induction h with
      | nil => rfl
      | cons hm _ ih => rw [List.map_cons, Expr.fillMembers, ih, hm.1]
    rw [Expr.withChildren, hfill]

theorem Reads.mono (hlead : columns <+: columns') (h : Reads label columns e e') :
    Reads label columns' e e' := by
  obtain ⟨i, name, hi, rfl⟩ := h
  obtain ⟨rest, rfl⟩ := hlead
  refine ⟨i, name, ?_, rfl⟩
  rw [List.getElem?_append_left (List.getElem?_eq_some_iff.mp hi).1, hi]

theorem Moved.mono (hlead : columns <+: columns') (h : Moved label sources columns e nested e') :
    Moved label sources columns' e nested e' := by
  induction e using Expr.children_induction generalizing nested e' with
  | step e ih =>
      cases ht : takes sources nested e with
      | true =>
          rw [moved_iff_reads ht] at h ⊢
          exact h.mono hlead
      | false =>
          rw [moved_iff_children ht] at h ⊢
          obtain ⟨cs, hcs, he⟩ := h
          refine ⟨cs, ?_, he⟩
          exact ((List.forall₂_and_left _ _).mpr ⟨fun c hc => hc, hcs⟩).imp
            fun c c' hc => ih c hc.1 hc.2

/-! The walk -/

/-- What is declared once a part is taken out: results each time, a column only the first time. -/
def declareOnce (parts : List Expr) (e : Expr) : List Expr :=
  if e ∈ parts ∧ isComputed e = false then parts else parts ++ [e]

theorem mem_foldl_declareOnce {parts xs : List Expr} {x : Expr}
    (h : x ∈ xs.foldl declareOnce parts) : x ∈ parts ∨ x ∈ xs := by
  induction xs generalizing parts with
  | nil => exact .inl h
  | cons y ys ih =>
      rw [List.foldl_cons] at h
      rcases ih h with h | h
      · rw [declareOnce] at h
        split at h
        next => exact .inl h
        next =>
          rw [List.mem_append, List.mem_singleton] at h
          exact h.imp_right fun hx => List.mem_cons.mpr (.inl hx)
      · exact .inr (List.mem_cons_of_mem y h)

/-- The columns declared so far are named apart, and the moved columns are those declared. -/
structure Declared (label : String) (sources : List String) (d : Declarations) : Prop where
  names : (d.columns.map (·.1)).Nodup
  moved : ∀ c column, d.moved.lookup c = some column →
    c.label ∈ sources ∧ Reads label d.columns (.column c) (.column column)
  known : ∀ c, .column c ∈ d.columns.map (·.2) → ∃ column, d.moved.lookup c = some column

/-- What steps of the walk do: they take `es` to `es'`, and the columns they declare for parts of
`es` are all read. -/
structure Moves (label : String) (sources : List String) (es : List Expr) (nested : Bool)
    (d : Declarations) (es' : List Expr) (d' : Declarations) : Prop where
  declared : Declared label sources d'
  grows : d.columns <+: d'.columns
  new : d'.columns.map (·.2) =
    (es.flatMap (taken sources · nested)).foldl declareOnce (d.columns.map (·.2))
  read : ∀ i, d.columns.length ≤ i → i < d'.columns.length →
    ∃ c, .column c ∈ es'.flatMap Expr.nodes ∧ c.label = label ∧ c.ordinal = i
  moved : List.Forall₂ (Moved label sources d'.columns · nested ·) es es'

variable {d d' d'' : Declarations} {es es' : List Expr}

theorem declared_empty : Declared label sources {} :=
  ⟨List.nodup_nil, fun _ _ h => (nomatch h), fun _ h => (nomatch h)⟩

theorem declare_columns (base : String) (type : DataType) :
    (d.declare label base type e).2.columns =
      d.columns ++ [(freshName (d.columns.map (·.1)) base, e)] := rfl

theorem Declared.nodup_declare (hd : Declared label sources d) (base : String) (type : DataType) :
    ((d.declare label base type e).2.columns.map (·.1)).Nodup := by
  rw [declare_columns, List.map_append, List.map_singleton, List.nodup_append_comm]
  exact List.nodup_cons.mpr ⟨freshName_notMem _ base, hd.names⟩

theorem Declared.moved_declare (hd : Declared label sources d) (base : String) (type : DataType)
    {c column : Column} (hc : d.moved.lookup c = some column) :
    c.label ∈ sources ∧
      Reads label (d.declare label base type e).2.columns (.column c) (.column column) := by
  obtain ⟨hsource, hreads⟩ := hd.moved c column hc
  exact ⟨hsource, hreads.mono (List.prefix_append _ _)⟩

theorem mem_declared {x : Expr} {name : String} (h : x ∈ (d.columns ++ [(name, e)]).map (·.2)) :
    x ∈ d.columns.map (·.2) ∨ x = e := by
  rw [List.map_append, List.mem_append] at h
  exact h.imp_right List.mem_singleton.mp

theorem Declared.declareComputed (hd : Declared label sources d) (he : isComputed e) (base : String)
    (type : DataType) : Declared label sources (d.declare label base type e).2 where
  names := hd.nodup_declare base type
  moved c column hc := hd.moved_declare base type hc
  known c hc := by
    rcases mem_declared hc with hc | rfl
    · exact hd.known c hc
    · cases he

theorem Declared.declareColumn (hd : Declared label sources d) {c : Column}
    (hc : c.label ∈ sources) :
    Declared label sources { (d.declare label c.name c.type (.column c)).2 with
      moved := d.moved ++ [(c, (d.declare label c.name c.type (.column c)).1)] } where
  names := hd.nodup_declare c.name c.type
  moved c' column' h := by
    rw [List.lookup_append] at h
    cases hold : d.moved.lookup c' with
    | some column'' =>
        rw [hold, Option.some_or] at h
        exact hd.moved_declare c.name c.type (hold.trans h)
    | none =>
        rw [hold, Option.none_or, List.lookup_cons] at h
        split at h
        next heq =>
          rw [Option.some.injEq] at h
          rw [eq_of_beq heq, ← h]
          refine ⟨hc, d.columns.length, freshName (d.columns.map (·.1)) c.name, ?_, rfl⟩
          rw [declare_columns, List.getElem?_concat_length]
        next => cases h
  known c' h := by
    simp only [List.lookup_append]
    rcases mem_declared h with h | h
    · obtain ⟨column, hcolumn⟩ := hd.known c' h
      exact ⟨column, by rw [hcolumn, Option.some_or]⟩
    · obtain rfl := Expr.column.inj h
      cases d.moved.lookup c' <;> simp

/-- The step to a part that is declared as a column of its own. -/
theorem Moves.declare {name : String} (hd' : Declared label sources d')
    (ht : takes sources nested e) (hcolumns : d'.columns = d.columns ++ [(name, e)])
    (hnew : e ∈ d.columns.map (·.2) → isComputed e) :
    Moves label sources [e] nested d
      [.column ⟨label, name, d.columns.length, e.staticType?.getD .null⟩] d' where
  declared := hd'
  grows := hcolumns ▸ List.prefix_append _ _
  new := by
    have hone : ¬(e ∈ d.columns.map (·.2) ∧ isComputed e = false) := by
      rintro ⟨hmem, he⟩
      rw [hnew hmem] at he
      cases he
    rw [List.flatMap_singleton, taken_eq, if_pos ht, List.foldl_cons, List.foldl_nil, declareOnce,
      if_neg hone, hcolumns, List.map_append, List.map_singleton]
  read i hle hlt := by
    rw [hcolumns, List.length_append, List.length_singleton] at hlt
    refine ⟨_, List.mem_flatMap.mpr ⟨_, List.mem_singleton_self _, Expr.self_mem_nodes _⟩, rfl, ?_⟩
    exact Nat.le_antisymm hle (Nat.lt_succ_iff.mp hlt)
  moved := by
    refine .cons ((moved_iff_reads ht).mpr ⟨d.columns.length, name, ?_, rfl⟩) .nil
    rw [hcolumns, List.getElem?_concat_length]

/-- A step that declares nothing. -/
theorem Moves.keep (hd : Declared label sources d)
    (hnew : (es.flatMap (taken sources · nested)).foldl declareOnce (d.columns.map (·.2)) =
      d.columns.map (·.2))
    (hmoved : List.Forall₂ (Moved label sources d.columns · nested ·) es es') :
    Moves label sources es nested d es' d where
  declared := hd
  grows := List.prefix_rfl
  new := hnew.symm
  read _ hle hlt := absurd hlt (Nat.not_lt.mpr hle)
  moved := hmoved

theorem Moves.cons (he : Moves label sources [e] nested d [e'] d')
    (hes : Moves label sources es nested d' es' d'') :
    Moves label sources (e :: es) nested d (e' :: es') d'' where
  declared := hes.declared
  grows := he.grows.trans hes.grows
  new := by
    rw [hes.new, he.new, List.flatMap_singleton, List.flatMap_cons, List.foldl_append]
  read i hle hlt := by
    rw [List.flatMap_cons]
    by_cases hi : i < d'.columns.length
    · obtain ⟨c, hc, h⟩ := he.read i hle hi
      rw [List.flatMap_singleton] at hc
      exact ⟨c, List.mem_append_left _ hc, h⟩
    · obtain ⟨c, hc, h⟩ := hes.read i (Nat.not_lt.mp hi) hlt
      exact ⟨c, List.mem_append_right _ hc, h⟩
  moved := by
    cases he.moved with
    | cons hmoved _ => exact .cons (hmoved.mono hes.grows) hes.moved

/-- The step to a node that stays, once the walk is through with its children. -/
theorem Moves.node (ht : takes sources nested e = false)
    (h : Moves label sources e.children (nested || isProjection e) d es' d')
    (hchildren : (e.withChildren es').children = es') :
    Moves label sources [e] nested d [e.withChildren es'] d' where
  declared := h.declared
  grows := h.grows
  new := by
    rw [h.new, List.flatMap_singleton, taken_eq, if_neg (by simp [ht])]
  read i hle hlt := by
    obtain ⟨c, hc, hi⟩ := h.read i hle hlt
    refine ⟨c, ?_, hi⟩
    rw [List.flatMap_singleton, Expr.nodes_eq, hchildren]
    exact List.mem_cons_of_mem _ hc
  moved := .cons ((moved_iff_children ht).mpr ⟨es', h.moved, rfl⟩) .nil

theorem moveColumn_moves (hd : Declared label sources d) (c : Column) :
    Moves label sources [.column c] nested d [.column ((moveColumn label sources c).run d).1]
      ((moveColumn label sources c).run d).2 := by
  have hrun : (moveColumn label sources c).run d = moveColumn label sources c d := rfl
  rw [hrun, moveColumn]
  cases hlookup : d.moved.lookup c with
  | some column =>
      obtain ⟨hc, hr⟩ := hd.moved c column hlookup
      have ht : takes sources nested (.column c) := by simpa [takes] using hc
      refine .keep hd ?_ (.cons ((moved_iff_reads ht).mpr hr) .nil)
      have hmem : Expr.column c ∈ d.columns.map (·.2) := by
        obtain ⟨i, name, hi, -⟩ := hr
        exact List.mem_map.mpr ⟨_, List.mem_of_getElem? hi, rfl⟩
      rw [List.flatMap_singleton, taken_eq, if_pos ht, List.foldl_cons, List.foldl_nil, declareOnce,
        if_pos ⟨hmem, rfl⟩]
  | none =>
      by_cases hc : c.label ∈ sources
      · simp only [hc, if_true]
        refine .declare (hd.declareColumn hc) (by simpa [takes] using hc) rfl fun hmem => ?_
        obtain ⟨column, hcolumn⟩ := hd.known c hmem
        rw [hlookup] at hcolumn
        cases hcolumn
      · simp only [hc, if_false]
        have ht : takes sources nested (.column c) = false := by simpa [takes] using hc
        refine .keep hd ?_ (.cons ((moved_iff_children ht).mpr ⟨[], .nil, rfl⟩) .nil)
        rw [List.flatMap_singleton, taken_eq, if_neg (by simp [ht])]
        rfl

theorem moveComputed_moves (hd : Declared label sources d) (he : isComputed e)
    (ht : takes sources nested e) :
    Moves label sources [e] nested d [.column ((moveComputed label e).run d).1]
      ((moveComputed label e).run d).2 := by
  have hd' : Declared label sources { d with computed := d.computed + 1 } :=
    ⟨hd.names, hd.moved, hd.known⟩
  exact .declare (hd'.declareComputed he _ _) ht rfl fun _ => he

theorem nominates_columnRule (e : Expr) (nested : Bool) :
    Nomination.nominates columnRule e nested =
      match e with
      | .column _ => true
      | e => !nested && isComputed e := by
  cases e <;> simp [Nomination.nominates, columnRule, isComputed, Expr.children]

/-- The walk over a list of siblings, each of which is moved. -/
theorem mapM_moves {f : Expr → StateM Declarations Expr} (cs : List Expr)
    (ih : ∀ c ∈ cs, ∀ d, Declared label sources d →
      Moves label sources [c] nested d [((f c).run d).1] ((f c).run d).2)
    (hd : Declared label sources d) :
    Moves label sources cs nested d ((cs.mapM f).run d).1 ((cs.mapM f).run d).2 := by
  induction cs generalizing d with
  | nil => exact .keep hd rfl .nil
  | cons c cs ihcs =>
      have hc := ih c List.mem_cons_self d hd
      simp only [List.mapM_cons, StateT.run_bind, StateT.run_pure]
      exact hc.cons (ihcs (fun c hc => ih c (List.mem_cons_of_mem _ hc)) hc.declared)

theorem takes_eq_false (h : Nomination.nominates columnRule e nested = false) :
    takes sources nested e = false := by
  rw [nominates_columnRule] at h
  cases e <;> simp_all [takes]

theorem moveNode_moves (hd : Declared label sources d)
    (h : Nomination.nominates columnRule e nested) :
    Moves label sources [e] nested d [((moveNode label sources e).run d).1]
      ((moveNode label sources e).run d).2 := by
  rw [nominates_columnRule] at h
  cases e with
  | column c => exact moveColumn_moves hd c
  | function f => exact moveComputed_moves hd rfl h
  | subquery f sql => exact moveComputed_moves hd rfl h
  | _ => simp [isComputed] at h

theorem replaceNominated_moves (e : Expr) (nested : Bool) (hd : Declared label sources d) :
    Moves label sources [e] nested d
      [((Nomination.replaceNominated columnRule (moveNode label sources) e nested).run d).1]
      ((Nomination.replaceNominated columnRule (moveNode label sources) e nested).run d).2 := by
  induction e using Expr.children_induction generalizing nested d with
  | step e ih =>
      rw [Nomination.replaceNominated_eq]
      cases h : Nomination.nominates columnRule e nested with
      | true => exact moveNode_moves hd h
      | false =>
          have ht : takes sources nested e = false := takes_eq_false h
          have hopens : columnRule.opensScope e = isProjection e := by cases e <;> rfl
          have hmoves :=
            mapM_moves e.children (fun c hc d hd => ih c hc (nested || isProjection e) hd) hd
          simp only [Bool.false_eq_true, if_false, hopens, StateT.run_map]
          refine hmoves.node ht ?_
          have hchildren := Expr.children_mapChildrenM (Nomination.replaceNominated columnRule
            (moveNode label sources) · (nested || isProjection e)) e
          rw [Expr.mapChildrenM_eq] at hchildren
          exact congrArg (fun walk => (StateT.run walk d).1) hchildren

/-- What the projection of an expression through a new select amounts to. -/
structure Projected (e : Expr) (label : String) (sources : List String) (e' : Expr)
    (columns : List (String × Expr)) : Prop where
  names : (columns.map (·.1)).Nodup
  new : columns.map (·.2) = (taken sources e false).foldl declareOnce []
  read : ∀ i < columns.length, ∃ c, .column c ∈ e'.nodes ∧ c.label = label ∧ c.ordinal = i
  moved : Moved label sources columns e false e'

theorem Projected.taken (h : Projected e label sources e' columns) :
    ∀ x ∈ columns, x.2 ∈ taken sources e false := by
  intro x hx
  have hmem : x.2 ∈ columns.map (·.2) := List.mem_map_of_mem hx
  rw [h.new] at hmem
  exact (mem_foldl_declareOnce hmem).resolve_left List.not_mem_nil

theorem projectColumns_projected (e : Expr) (label : String) (sources : List String) :
    Projected e label sources (projectColumns e label sources).1
      (projectColumns e label sources).2 := by
  have hd : Declared label sources {} := declared_empty
  obtain ⟨hdeclared, -, hnew, hread, hmoved⟩ := replaceNominated_moves e false hd
  rw [List.flatMap_singleton] at hnew
  simp only [List.flatMap_singleton] at hread
  simp only [projectColumns, Nomination.replaceTopmost_eq]
  exact ⟨hdeclared.names, hnew, fun i hi => hread i (Nat.zero_le i) hi,
    (List.forall₂_cons.mp hmoved).1⟩

end Quarry.Binding
