import Quarry.Proofs.Restoration
import Quarry.Proofs.Stems
/-!
How output columns get their names. They are named one after the other, each by the first name of
its own sequence that is free, and the search for it ends before it has rejected more names than are
used; so every name has the stem of a moved column's name or that of a computed result, and moved
columns with names of their own keep them where nothing is computed.
-/
namespace Quarry.Binding

theorem freshName_eq_self {used : List String} {base : String} (h : base ∉ used) :
    freshName used base = base := by
  obtain ⟨n, -, hname, -, hbefore⟩ := freshName_first used base
  cases n with
  | zero => exact hname
  | succ n => exact absurd (hbefore 0 n.succ_pos) h

/-! The search for a free name -/

/-- A name on trial, and the number that the next one ends in. -/
structure Trial where
  name : String
  number : Nat

namespace Trial

/-- The base itself is tried first. -/
def first (base : String) : Trial := ⟨base, 1⟩

/-- A used name gives way to the base with the next number; a free one ends the search. -/
def next? (used : List String) (base : String) (t : Trial) : Option Trial :=
  if t.name ∈ used then some ⟨base ++ toString t.number, t.number + 1⟩ else none

/-- The search from a trial on rejects some names, one in each round, and ends with another. There
is no bound on the rounds: a search that goes on for ever does not end. -/
inductive Ends (used : List String) (base : String) : Trial → List String → String → Prop
  | keep {t} (h : t.next? used base = none) : Ends used base t [] t.name
  | reject {t t' rejected name} (h : t.next? used base = some t')
      (hend : Ends used base t' rejected name) : Ends used base t (t.name :: rejected) name

/-- The trial of the `n`-th name of the sequence. -/
def nth (base : String) (n : Nat) : Trial := ⟨suffixed base n, n + 1⟩

variable {used : List String} {base : String}

theorem next?_nth_used {n : Nat} (h : suffixed base n ∈ used) :
    (nth base n).next? used base = some (nth base (n + 1)) := if_pos h

theorem next?_nth_free {n : Nat} (h : suffixed base n ∉ used) :
    (nth base n).next? used base = none := if_neg h

/-- The search goes through the sequence up to the first free name. -/
theorem ends_nth {k n : Nat} (hfree : suffixed base (k + n) ∉ used)
    (hbefore : ∀ m, k ≤ m → m < k + n → suffixed base m ∈ used) :
    Ends used base (nth base k) ((List.range' k n).map (suffixed base)) (suffixed base (k + n)) := by
  -- on the number of used names still ahead
  induction n generalizing k with
  | zero => exact .keep (next?_nth_free hfree)
  | succ n ih =>
      have hshift : k + (n + 1) = k + 1 + n := by omega
      rw [hshift] at hfree hbefore ⊢
      have hused : suffixed base k ∈ used := hbefore k le_rfl (by omega)
      have hend := ih hfree fun m hm => hbefore m (Nat.le_of_succ_le hm)
      exact .reject (next?_nth_used hused) hend

theorem Ends.unique {t : Trial} {rejected rejected' : List String} {name name' : String}
    (h : Ends used base t rejected name) (h' : Ends used base t rejected' name') :
    rejected' = rejected ∧ name' = name := by
  induction h generalizing rejected' with
  | keep hnext =>
      cases h' with
      | keep => exact ⟨rfl, rfl⟩
      | reject hnext' => cases hnext.symm.trans hnext'
  | reject hnext _ ih =>
      cases h' with
      | keep hnext' => cases hnext.symm.trans hnext'
      | reject hnext' hend' =>
          cases hnext.symm.trans hnext'
          obtain ⟨rfl, rfl⟩ := ih hend'
          exact ⟨rfl, rfl⟩

end Trial

/-- The search for a free name always ends, in one way only and with the fresh name. It rejects no
more names than are used; and those that it tries are the first ones of `base, base1, base2, …`, all
distinct, of which the last one alone is free. -/
theorem search_ends_freshName (used : List String) (base : String) :
    ∃ rejected : List String,
      (∀ rejected' name, Trial.Ends used base (.first base) rejected' name ↔
        rejected' = rejected ∧ name = freshName used base) ∧
      rejected.length ≤ used.toFinset.card ∧
      rejected ++ [freshName used base] =
        (List.range (rejected.length + 1)).map (suffixed base) ∧
      (rejected ++ [freshName used base]).Nodup ∧
      (∀ name ∈ rejected, name ∈ used) ∧ freshName used base ∉ used := by
  obtain ⟨n, hcard, hname, hfree, hbefore⟩ := freshName_first used base
  have htried : (List.range n).map (suffixed base) ++ [freshName used base] =
      (List.range (n + 1)).map (suffixed base) := by
    rw [hname, List.range_succ, List.map_append, List.map_singleton]
  have hends : Trial.Ends used base (.first base) ((List.range n).map (suffixed base))
      (freshName used base) := by
    rw [← Nat.zero_add n] at hfree hbefore
    have hrun := Trial.ends_nth hfree fun m _ => hbefore m
    rwa [Nat.zero_add, ← List.range_eq_range', ← hname] at hrun
  refine ⟨(List.range n).map (suffixed base), fun rejected' name => ⟨hends.unique, ?_⟩, ?_, ?_,
    ?_, ?_, freshName_notMem used base⟩
  · rintro ⟨rfl, rfl⟩
    exact hends
  · simpa using hcard
  · simpa using htried
  · rw [htried]
    exact List.nodup_range.map (suffixed_injective base)
  · simpa using hbefore

/-- A base that ends in a digit takes further ones. -/
example : freshName ["c1", "c11"] "c1" = "c12" := by decide

/-! The names that the columns get -/

theorem isDigit_of_mem_toString {n : Nat} : ∀ c ∈ (toString n).toList, c.isDigit := by
  intro c hc
  have hdigits : (toString n).toList = Nat.toDigits 10 n := String.toList_ofList
  exact Nat.isDigit_of_mem_toDigits (by decide) (by decide) (hdigits ▸ hc)

theorem stem_freshName (used : List String) (base : String) :
    stem (freshName used base) = stem base := by
  obtain ⟨n, -, hname, -⟩ := freshName_first used base
  rw [hname]
  cases n with
  | zero => rfl
  | succ n => exact stem_append isDigit_of_mem_toString base

/-- The name that an output column is given if it is free, after `computed` results. -/
def baseName (computed : Nat) : Expr → String
  | .column c => c.name
  | _ => "c" ++ toString computed

/-- The columns are named one after the other, each by the first name of its own that is free. -/
inductive Named : List (String × Expr) → Prop
  | nil : Named []
  | declare {columns} (e : Expr) (h : Named columns) :
      Named (columns ++ [(freshName (columns.map (·.1))
        (baseName (columns.countP (isComputed ·.2)) e), e)])

/-- The declarations so far are named in order. -/
structure Declarations.IsNamed (d : Declarations) : Prop where
  named : Named d.columns
  computed : d.computed = d.columns.countP (isComputed ·.2)

variable {label : String} {sources : List String} {d : Declarations} {e : Expr}

theorem moveColumn_isNamed (h : d.IsNamed) (c : Column) :
    ((moveColumn label sources c).run d).2.IsNamed := by
  have hrun : (moveColumn label sources c).run d = moveColumn label sources c d := rfl
  rw [hrun, moveColumn]
  cases d.moved.lookup c with
  | some column => exact h
  | none =>
      by_cases hc : c.label ∈ sources
      · simp only [hc, if_true]
        refine ⟨h.named.declare (.column c), ?_⟩
        rw [declare_columns, List.countP_append]
        exact h.computed
      · simpa only [hc, if_false] using h

theorem moveComputed_isNamed (label : String) (h : d.IsNamed) (he : isComputed e) :
    ((moveComputed label e).run d).2.IsNamed := by
  have hbase : baseName (d.columns.countP (isComputed ·.2)) e = "c" ++ toString d.computed := by
    rw [← h.computed]
    cases e with
    | function | subquery => rfl
    | _ => cases he
  have hnamed := h.named.declare e
  rw [hbase] at hnamed
  refine ⟨hnamed, ?_⟩
  have hcolumns : ((moveComputed label e).run d).2.columns =
      d.columns ++ [(freshName (d.columns.map (·.1)) ("c" ++ toString d.computed), e)] := rfl
  rw [hcolumns, List.countP_append, List.countP_singleton, if_pos he, ← h.computed]
  rfl

theorem moveNode_isNamed {nested : Bool} (h : d.IsNamed)
    (he : Nomination.nominates columnRule e nested) :
    ((moveNode label sources e).run d).2.IsNamed := by
  rw [nominates_columnRule] at he
  cases e with
  | column c => exact moveColumn_isNamed h c
  | function f => exact moveComputed_isNamed label h rfl
  | subquery f sql => exact moveComputed_isNamed label h rfl
  | _ => simp [isComputed] at he

theorem mapM_isNamed {f : Expr → StateM Declarations Expr} (cs : List Expr)
    (ih : ∀ c ∈ cs, ∀ d : Declarations, d.IsNamed → ((f c).run d).2.IsNamed) (h : d.IsNamed) :
    ((cs.mapM f).run d).2.IsNamed := by
  induction cs generalizing d with
  | nil => exact h
  | cons c cs ihcs =>
      simp only [List.mapM_cons, StateT.run_bind, StateT.run_pure]
      exact ihcs (fun c hc => ih c (List.mem_cons_of_mem _ hc)) (ih c List.mem_cons_self d h)

theorem replaceNominated_isNamed (e : Expr) (nested : Bool) (h : d.IsNamed) :
    ((Nomination.replaceNominated columnRule (moveNode label sources) e nested).run
      d).2.IsNamed := by
  induction e using Expr.children_induction generalizing nested d with
  | step e ih =>
      rw [Nomination.replaceNominated_eq]
      cases hnominated : Nomination.nominates columnRule e nested with
      | true => exact moveNode_isNamed h hnominated
      | false => exact mapM_isNamed e.children (fun c hc _ hd => ih c hc _ hd) h

theorem projectColumns_named (e : Expr) (label : String) (sources : List String) :
    Named (projectColumns e label sources).2 := by
  simp only [projectColumns, Nomination.replaceTopmost_eq]
  exact (replaceNominated_isNamed e false ⟨.nil, rfl⟩).named

/-- What the name of an output column is made from. -/
def origin : Expr → String
  | .column c => c.name
  | _ => "c"

theorem origin_computed (h : isComputed e) : origin e = "c" := by
  cases e with
  | function | subquery => rfl
  | _ => cases h

theorem stem_baseName (computed : Nat) (e : Expr) :
    stem (baseName computed e) = stem (origin e) := by
  cases e with
  | column => rfl
  | _ => exact stem_append isDigit_of_mem_toString "c"

variable {columns : List (String × Expr)}

theorem Named.stem_eq (h : Named columns) : ∀ x ∈ columns, stem x.1 = stem (origin x.2) := by
  induction h with
  | nil => exact List.forall_mem_nil _
  | declare e _ ih =>
      refine List.forall_mem_append.mpr ⟨ih, List.forall_mem_singleton.mpr ?_⟩
      exact (stem_freshName _ _).trans (stem_baseName _ e)

/-- Columns with names of their own keep them, as long as nothing is computed. -/
theorem Named.names_eq (h : Named columns) (hcolumns : ∀ x ∈ columns, ∃ c, x.2 = .column c)
    (hnodup : (columns.map (origin ·.2)).Nodup) :
    columns.map (·.1) = columns.map (origin ·.2) := by
  induction h with
  | nil => rfl
  | @declare columns e _ ih =>
      -- all columns before the last one kept their names, and the last one has another name
      obtain ⟨hbefore, hlast⟩ := List.forall_mem_append.mp hcolumns
      obtain ⟨c, rfl⟩ := hlast _ (List.mem_singleton_self _)
      rw [List.map_append, List.nodup_append_comm] at hnodup
      obtain ⟨hfresh, hnodup⟩ := List.nodup_cons.mp hnodup
      have hnames := ih hbefore hnodup
      rw [← hnames] at hfresh
      have hlast : freshName (columns.map (·.1)) c.name = c.name := freshName_eq_self hfresh
      rw [List.map_append, List.map_append]
      exact congrArg₂ (· ++ [·]) hnames hlast

/-- Every name has the stem of a moved column's name, or is one of a computed result. -/
theorem Named.stem_mem (h : Named columns) {stems : List String}
    (hcolumns : ∀ x ∈ columns, (∃ c, x.2 = .column c ∧ stem c.name ∈ stems) ∨ isComputed x.2) :
    ∀ x ∈ columns,
      stem x.1 ∈ (if columns.any (isComputed ·.2) then ["c"] else []) ++ stems := by
  intro x hx
  rw [h.stem_eq x hx]
  rcases hcolumns x hx with ⟨c, hc, hstem⟩ | hcomputed
  · rw [hc]
    exact List.mem_append_right _ hstem
  · rw [if_pos (List.any_eq_true.mpr ⟨x, hx, hcomputed⟩), origin_computed hcomputed]
    exact List.mem_append_left _ (List.mem_singleton_self _)

/-- Columns that are told apart by how their names are written still are once they are declared. -/
theorem Named.written_nodup (h : Named columns) {style : IdentifierCase}
    (hcolumns : ∀ x ∈ columns, ∃ c, x.2 = .column c) (hnodup : (columns.map (·.2)).Nodup)
    (hapart : ∀ c c', .column c ∈ columns.map (·.2) → .column c' ∈ columns.map (·.2) →
      style.normalize c.name = style.normalize c'.name → c = c') :
    ((columns.map (·.1)).map style.normalize).Nodup := by
  have hwritten : ((columns.map (origin ·.2)).map style.normalize).Nodup := by
    have hcolumn : ∀ e ∈ columns.map (·.2), ∃ c, e = .column c := by
      intro e he
      obtain ⟨x, hx, rfl⟩ := List.mem_map.mp he
      exact hcolumns x hx
    have hmap : (columns.map (origin ·.2)).map style.normalize =
        (columns.map (·.2)).map (style.normalize ∘ origin) := by
      simp only [List.map_map, Function.comp_def]
    rw [hmap]
    refine hnodup.map_on fun e he e' he' heq => ?_
    obtain ⟨c, rfl⟩ := hcolumn e he
    obtain ⟨c', rfl⟩ := hcolumn e' he'
    rw [hapart c c' he he' heq]
  rwa [h.names_eq hcolumns hwritten.of_map]

end Quarry.Binding
