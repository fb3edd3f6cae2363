import Quarry.Proofs.LineBreaks
/-!
Layout of the query text. A select is a run of segments: words, clauses that begin a line, and the
parentheses around a select inside another. The width of a level of indentation decides only how
many spaces a line begins with, and how deep a line stands follows from the parentheses that are
open there.
-/
namespace Quarry

/-- The select whose text is the text of an expression. -/
def Expr.selected? : Expr → Option (Select Expr)
  | .select s => some s
  | .projection p => some p.source
  | _ => none

namespace Sql

/-! Segments -/

/-- What a line begins with, closing parentheses apart. -/
inductive Heading where
  | columns
  | source
  | filter
  | join (kind : JoinKind)
  | condition

namespace Heading

def keyword : Heading → String
  | .columns => "SELECT "
  | .source => "FROM "
  | .filter => "WHERE "
  | .join kind => kind.name ++ " "
  | .condition => "ON "

/-- How much deeper than the parentheses around it a line stands. -/
def inset : Heading → Nat
  | .condition => 1
  | _ => 0

end Heading

inductive Segment where
  | words (text : String)
  | heading (h : Heading)
  | opening
  | closing

/-- A line without the spaces it begins with. -/
structure Line where
  depth : Nat
  body : String

namespace Line

def add (line : Line) (text : String) : Line := { line with body := line.body ++ text }

def indented (width : Nat) (line : Line) : List Char :=
  List.replicate (width * line.depth) ' ' ++ line.body.toList

end Line

/-- A text with a first character, and that is no space. -/
def Flush (s : String) : Prop := s.toList.head?.any (· ≠ ' ')

instance (s : String) : Decidable (Flush s) := inferInstanceAs (Decidable (_ = _))

/-- The lines of segments that follow the beginning of a line, within so many parentheses. A closing
parenthesis that begins a line counts as closed there. -/
def lines (line : Line) (within : Nat) : List Segment → List Line
  | [] => [line]
  | .words text :: rest => lines (line.add text) within rest
  | .heading h :: rest => line :: lines ⟨within + h.inset, h.keyword⟩ within rest
  | .opening :: rest => lines (line.add "(") (within + 1) rest
  | .closing :: rest => line :: lines ⟨within - 1, ")"⟩ (within - 1) rest

def queryLines : List Segment → List Line := lines ⟨0, Heading.columns.keyword⟩ 0

def textLines (t : String) : List (List Char) := t.toList.splitOn '\n'

/-- The lines of a text without the spaces they begin with. -/
def unindented (t : String) : List (List Char) := (textLines t).map (List.dropWhile (· = ' '))

section Segments

variable (style : Style)

/-- A clause that may be left out. -/
def headed (h : Heading) (e : Option Expr) : Except Error (List Segment) :=
  match e with
  | none => .ok []
  | some e => do return [.heading h, .words (← predicateText style e)]

mutual

/-- What follows the first keyword of a select. -/
def selectSegments : Select Expr → Except Error (List Segment)
  | ⟨_, columns, source, filter⟩ => do
    let columns ← columnsText style columns
    let source ← sourceSegments source
    let filter ← headed style .filter filter
    return .words columns :: .heading .source :: source ++ filter

def sourceSegments : Expr → Except Error (List Segment)
  | .table t => .ok [.words (style.ident t.name ++ " " ++ style.ident t.label)]
  | .select s => do
    let select ← selectSegments s
    return .opening :: .heading .columns :: select ++
      [.closing, .words (" " ++ style.ident s.label)]
  | .join kind l r condition => do
    let left ← sourceSegments l
    let right ← sourceSegments r
    let condition ← headed style .condition condition
    return left ++ .heading (.join kind) :: right ++ condition
  | e => .error (.unsupportedSource e.kind e.display)

end

end Segments

/-! Text of segments -/

def lineBreak (width depth : Nat) : String :=
  "\n" ++ String.ofList (List.replicate (depth * width) ' ')

def segmentsText (width : Nat) : Nat → List Segment → String
  | _, [] => ""
  | depth, .words text :: rest => text ++ segmentsText width depth rest
  | depth, .heading h :: rest =>
    lineBreak width (depth + h.inset) ++ h.keyword ++ segmentsText width depth rest
  | depth, .opening :: rest => "(" ++ segmentsText width (depth + 1) rest
  | depth, .closing :: rest =>
    lineBreak width (depth - 1) ++ ")" ++ segmentsText width (depth - 1) rest

def depthAfter : Nat → List Segment → Nat
  | depth, [] => depth
  | depth, .opening :: rest => depthAfter (depth + 1) rest
  | depth, .closing :: rest => depthAfter (depth - 1) rest
  | depth, .words _ :: rest | depth, .heading _ :: rest => depthAfter depth rest

variable {style : Style} {width depth : Nat} {e : Expr} {t : String} {ss : List Segment}

theorem segmentsText_append (ss ts : List Segment) : segmentsText width depth (ss ++ ts) =
    segmentsText width depth ss ++ segmentsText width (depthAfter depth ss) ts := by
  induction ss generalizing depth with
  | nil => simp [segmentsText, depthAfter]
  | cons s ss ih => cases s <;> simp [segmentsText, depthAfter, ih, String.append_assoc]

theorem depthAfter_append (ss ts : List Segment) :
    depthAfter depth (ss ++ ts) = depthAfter (depthAfter depth ss) ts := by
  induction ss generalizing depth with
  | nil => rfl
  | cons s ss ih => cases s <;> exact ih

/-- As many parentheses are closed as are opened, whatever the depth at the start. -/
def KeepsDepth (ss : List Segment) : Prop := ∀ depth, depthAfter depth ss = depth

theorem KeepsDepth.append {ts : List Segment} (hs : KeepsDepth ss) (ht : KeepsDepth ts) :
    KeepsDepth (ss ++ ts) := fun depth => by rw [depthAfter_append, hs, ht]

theorem keepsDepth_headed {h : Heading} {o : Option Expr} (hss : headed style h o = .ok ss) :
    KeepsDepth ss := by
  cases o with
  | none =>
      cases hss
      exact fun _ => rfl
  | some e =>
      obtain ⟨t, -, ht⟩ := bind_eq_ok.mp hss
      obtain rfl := pure_eq_ok.mp ht
      exact fun _ => rfl

theorem keepsDepth_selectSegments {s : Select Expr}
    (hsource : ∀ ss, sourceSegments style s.source = .ok ss → KeepsDepth ss)
    (h : selectSegments style s = .ok ss) : KeepsDepth ss := by
  obtain ⟨label, columns, source, filter⟩ := s
  simp only [selectSegments, bind_eq_ok, pure_eq_ok] at h
  obtain ⟨cs, -, src, hsrc, fs, hfs, rfl⟩ := h
  exact (hsource src hsrc).append (keepsDepth_headed hfs)

theorem keepsDepth_sourceSegments (h : sourceSegments style e = .ok ss) : KeepsDepth ss := by
  induction e using Expr.children_induction generalizing ss with
  | step e ih =>
      cases e with
      | table t =>
          cases h
          exact fun _ => rfl
      | select s =>
          have hsource : s.source ∈ (Expr.select s).children := by
            simp [Expr.children, Select.children]
          simp only [sourceSegments, bind_eq_ok, pure_eq_ok] at h
          obtain ⟨inner, hinner, rfl⟩ := h
          have hinner := keepsDepth_selectSegments (fun ss hss => ih _ hsource hss) hinner
          intro depth
          change depthAfter (depth + 1) (inner ++ _) = depth
          rw [depthAfter_append, hinner]
          rfl
      | join kind l r condition =>
          simp only [sourceSegments, bind_eq_ok, pure_eq_ok] at h
          obtain ⟨left, hleft, right, hright, on, hon, rfl⟩ := h
          have hleft : KeepsDepth left := ih l List.mem_cons_self hleft
          have hright : KeepsDepth right := ih r (by simp [Expr.children]) hright
          have hjoin : KeepsDepth (.heading (.join kind) :: right) := hright
          exact (hleft.append hjoin).append (keepsDepth_headed hon)
      | _ => cases h

/-! Independence of the width -/

def Style.withIndent (style : Style) (width : Nat) : Style := { style with indentWidth := width }

theorem texts_withIndent {es : List Expr} {position : Position} {nested : Bool}
    (h : ∀ e ∈ es, text (style.withIndent width) position nested e = text style position nested e) :
    texts (style.withIndent width) position nested es = texts style position nested es := by
  induction es with
  | nil => rfl
  | cons e es ih =>
      rw [List.forall_mem_cons] at h
      simp only [texts, h.1, ih h.2]

theorem text_withIndent (position : Position) (nested : Bool) (e : Expr) :
    text (style.withIndent width) position nested e = text style position nested e := by
  induction e using Expr.children_induction generalizing position nested with
  | step e ih =>
      cases e with
      | unary op operand =>
          have hoperand := ih operand List.mem_cons_self
          cases op <;> simp only [text, hoperand]
      | binary op l r =>
          have hl := ih l List.mem_cons_self
          have hr := ih r (by simp [Expr.children])
          cases op with
          | arithmetic op => cases op <;> simp only [text, hl, hr]
          | _ => simp only [text, hl, hr]
      | function f =>
          obtain ⟨method, name, receiver, args, type⟩ := f
          have hargs := texts_withIndent fun c hc => ih c (List.mem_append_right _ hc) .scalar false
          have hreceiver : textOption (style.withIndent width) receiver =
              textOption style receiver := by
            cases receiver with
            | none => rfl
            | some c => simp only [textOption, ih c (List.mem_append_left _ List.mem_cons_self)]
          simp only [text, hreceiver, hargs]
      | subquery f sql =>
          obtain ⟨method, name, receiver, args, type⟩ := f
          have hargs := texts_withIndent fun c hc =>
            ih c (List.mem_append_right _ hc) .predicate (1 < args.length)
          simp only [text, hargs]
      | _ => rfl

theorem columnsText_withIndent (columns : List (String × Expr)) :
    columnsText (style.withIndent width) columns = columnsText style columns := by
  have hdeclaration : declarationText (style.withIndent width) = declarationText style := by
    funext column
    simp only [declarationText, scalarText, text_withIndent]
    rfl
  rw [columnsText, hdeclaration, columnsText]

/-! Writing -/

/-- What is written is the text of the segments at any depth, and the depth follows them. -/
def Lays (width : Nat) (x : Layout String) (y : Except Error (List Segment)) : Prop :=
  ∀ depth, x.run depth =
    y.map fun ss => (segmentsText width depth ss, depthAfter depth ss)

theorem filterText_lays (filter : Option Expr) :
    Lays width (filterText (style.withIndent width) filter) (headed style .filter filter) := by
  intro depth
  cases filter with
  | none => rfl
  | some e =>
      simp only [filterText, headed, predicateText, text_withIndent]
      cases text style .predicate false e with
      | error err => rfl
      | ok t =>
          have htext : lineBreak width depth ++ "WHERE " ++ t =
              segmentsText width depth [.heading .filter, .words t] := by
            simp [segmentsText, Heading.keyword, Heading.inset, String.append_assoc]
          exact congrArg (fun u => Except.ok (u, depth)) htext

theorem conditionText_lays (condition : Option Expr) :
    Lays width (conditionText (style.withIndent width) condition)
      (headed style .condition condition) := by
  intro depth
  cases condition with
  | none => rfl
  | some e =>
      simp only [conditionText, headed, predicateText, text_withIndent]
      cases text style .predicate false e with
      | error err => rfl
      | ok t =>
          have htext : lineBreak width (depth + 1) ++ "ON " ++ t =
              segmentsText width depth [.heading .condition, .words t] := by
            simp [segmentsText, Heading.keyword, Heading.inset, String.append_assoc]
          exact congrArg (fun u => Except.ok (u, depth)) htext

theorem selectText_lays {s : Select Expr}
    (hsource : Lays width (sourceText (style.withIndent width) s.source)
      (sourceSegments style s.source)) :
    Lays width (selectText (style.withIndent width) s)
      ((selectSegments style s).map (.words Heading.columns.keyword :: ·)) := by
  obtain ⟨label, columns, source, filter⟩ := s
  intro depth
  simp only [selectText, selectSegments, columnsText_withIndent, StateT.run_bind, hsource _,
    filterText_lays filter _]
  cases columnsText style columns with
  | error err => rfl
  | ok cs =>
      cases sourceSegments style source with
      | error err => rfl
      | ok src =>
          cases headed style .filter filter with
          | error err => rfl
          | ok fs =>
              have hdepth : depthAfter (depthAfter depth src) fs = depthAfter depth (src ++ fs) :=
                (depthAfter_append src fs).symm
              have htext : "SELECT " ++ cs ++ lineBreak width depth ++ "FROM " ++
                  segmentsText width depth src ++ segmentsText width (depthAfter depth src) fs =
                  segmentsText width depth
                    (.words "SELECT " :: .words cs :: .heading .source :: src ++ fs) := by
                simp [segmentsText, segmentsText_append, Heading.keyword, Heading.inset,
                  String.append_assoc]
              exact congrArg₂ (fun u d => Except.ok (u, d)) htext hdepth

theorem nestedText_lays {s : Select Expr}
    (hselect : Lays width (selectText (style.withIndent width) s)
      ((selectSegments style s).map (.words Heading.columns.keyword :: ·))) :
    Lays width (sourceText (style.withIndent width) (.select s))
      (sourceSegments style (.select s)) := by
  intro depth
  simp only [sourceText, sourceSegments, StateT.run_bind, hselect _]
  cases selectSegments style s with
  | error err => rfl
  | ok inner =>
      let last : List Segment := [.closing, .words (" " ++ style.ident s.label)]
      have hdepth : depthAfter (depth + 1) inner - 1 = depthAfter (depth + 1) (inner ++ last) := by
        rw [depthAfter_append]
        rfl
      have hclose : ") " ++ style.ident s.label = ")" ++ (" " ++ style.ident s.label) := by
        rw [← String.append_assoc]
        rfl
      have htext : "(" ++ lineBreak width (depth + 1) ++
          segmentsText width (depth + 1) (.words "SELECT " :: inner) ++
          lineBreak width (depthAfter (depth + 1) inner - 1) ++ ") " ++ style.ident s.label =
          segmentsText width depth (.opening :: .heading .columns :: inner ++ last) := by
        simp [last, segmentsText, segmentsText_append, Heading.keyword, Heading.inset,
          String.append_assoc, hclose]
      exact congrArg₂ (fun u d => Except.ok (u, d)) htext hdepth

theorem joinText_lays {kind : JoinKind} {l r : Expr} {condition : Option Expr}
    (hl : Lays width (sourceText (style.withIndent width) l) (sourceSegments style l))
    (hr : Lays width (sourceText (style.withIndent width) r) (sourceSegments style r)) :
    Lays width (sourceText (style.withIndent width) (.join kind l r condition))
      (sourceSegments style (.join kind l r condition)) := by
  intro depth
  simp only [sourceText, sourceSegments, StateT.run_bind, hl _, hr _,
    conditionText_lays condition _]
  cases sourceSegments style l with
  | error err => rfl
  | ok left =>
      cases sourceSegments style r with
      | error err => rfl
      | ok right =>
          cases headed style .condition condition with
          | error err => rfl
          | ok on =>
              have hdepth : depthAfter (depthAfter (depthAfter depth left) right) on =
                  depthAfter depth (left ++ .heading (.join kind) :: right ++ on) := by
                rw [depthAfter_append, depthAfter_append]
                rfl
              have htext : segmentsText width depth left ++
                  lineBreak width (depthAfter depth left) ++ kind.name ++ " " ++
                  segmentsText width (depthAfter depth left) right ++
                  segmentsText width (depthAfter (depthAfter depth left) right) on =
                  segmentsText width depth (left ++ .heading (.join kind) :: right ++ on) := by
                simp [segmentsText, segmentsText_append, Heading.keyword, Heading.inset,
                  String.append_assoc]
              exact congrArg₂ (fun u d => Except.ok (u, d)) htext hdepth

theorem sourceText_lays (e : Expr) :
    Lays width (sourceText (style.withIndent width) e) (sourceSegments style e) := by
  induction e using Expr.children_induction with
  | step e ih =>
      cases e with
      | table t =>
          intro depth
          have htext : style.ident t.name ++ " " ++ style.ident t.label = segmentsText width depth
              [.words (style.ident t.name ++ " " ++ style.ident t.label)] := by
            simp [segmentsText]
          simp only [sourceText, sourceSegments]
          exact congrArg (fun u => Except.ok (u, depth)) htext
      | select s =>
          have hsource : s.source ∈ (Expr.select s).children := by
            simp [Expr.children, Select.children]
          exact nestedText_lays (selectText_lays (ih _ hsource))
      | join kind l r condition =>
          exact joinText_lays (ih l List.mem_cons_self) (ih r (by simp [Expr.children]))
      | _ => exact fun _ => rfl

/-! Segments without line breaks -/

/-- The words of a segment stay on one line. -/
def Segment.Unbroken : Segment → Prop
  | .words text => OneLine text
  | _ => True

theorem headed_unbroken {h : Heading} {o : Option Expr} (hwhole : ∀ e ∈ o, Unbroken style e)
    (hss : headed style h o = .ok ss) : ∀ s ∈ ss, s.Unbroken := by
  cases o with
  | none =>
      cases hss
      exact List.forall_mem_nil _
  | some e =>
      obtain ⟨t, ht, hss⟩ := bind_eq_ok.mp hss
      obtain rfl := pure_eq_ok.mp hss
      have ht : OneLine t := text_oneLine (hwhole e rfl) ht
      simpa [Segment.Unbroken] using ht

theorem selectSegments_unbroken {s : Select Expr} (hwhole : Unbroken style (.select s))
    (hsource : ∀ ss, sourceSegments style s.source = .ok ss → ∀ s ∈ ss, s.Unbroken)
    (h : selectSegments style s = .ok ss) : ∀ s ∈ ss, s.Unbroken := by
  have hcolumns (column) (hc : column ∈ s.columns) : column.2 ∈ (Expr.select s).writtenParts :=
    List.mem_append_left _ (List.mem_map_of_mem hc)
  have hnames : ∀ column ∈ s.columns, OneLine (style.ident column.1) := fun column hc =>
    hwhole.name (List.mem_cons_of_mem _ (List.mem_map_of_mem hc))
  have hfilter (f) (hf : f ∈ s.filter) : f ∈ (Expr.select s).writtenParts :=
    List.mem_append_right _ (List.mem_cons_of_mem _ (Option.mem_toList.mpr hf))
  obtain ⟨label, columns, source, filter⟩ := s
  simp only [selectSegments, bind_eq_ok, pure_eq_ok] at h
  obtain ⟨cs, hcs, src, hsrc, fs, hfs, rfl⟩ := h
  have hcs : OneLine cs := columnsText_oneLine hnames (fun c hc => hwhole.part (hcolumns c hc)) hcs
  have hsrc := hsource src hsrc
  have hfs := headed_unbroken (fun f hf => hwhole.part (hfilter f hf)) hfs
  simp only [List.forall_mem_append, List.forall_mem_cons]
  exact ⟨⟨hcs, trivial, hsrc⟩, hfs⟩

theorem sourceSegments_unbroken (hwhole : Unbroken style e)
    (h : sourceSegments style e = .ok ss) : ∀ s ∈ ss, s.Unbroken := by
  induction e using Expr.children_induction generalizing ss with
  | step e ih =>
      have ih {c : Expr} (hc : c ∈ e.writtenParts) (ss) (hss : sourceSegments style c = .ok ss) :
          ∀ s ∈ ss, s.Unbroken := ih c (Expr.child_of_writtenPart hc) (hwhole.part hc) hss
      cases e with
      | table t =>
          cases h
          have hname : OneLine (style.ident t.name) := hwhole.name (by simp [identifiers])
          have hlabel : OneLine (style.ident t.label) := hwhole.name (by simp [identifiers])
          exact List.forall_mem_singleton.mpr ((hname.append (by decide)).append hlabel)
      | select s =>
          have hlabel : OneLine (style.ident s.label) := hwhole.name (by simp [identifiers])
          have hspaced : OneLine (" " ++ style.ident s.label) := .append (by decide) hlabel
          simp only [sourceSegments, bind_eq_ok, pure_eq_ok] at h
          obtain ⟨inner, hinner, rfl⟩ := h
          have hsource : s.source ∈ (Expr.select s).writtenParts := by
            simp [Expr.writtenParts, Expr.children, Select.children]
          have hinner := selectSegments_unbroken hwhole (ih hsource) hinner
          simp only [List.forall_mem_append, List.forall_mem_cons]
          exact ⟨⟨trivial, trivial, hinner⟩, trivial, hspaced, List.forall_mem_nil _⟩
      | join kind l r condition =>
          simp only [sourceSegments, bind_eq_ok, pure_eq_ok] at h
          obtain ⟨left, hleft, right, hright, on, hon, rfl⟩ := h
          have hleft := ih List.mem_cons_self left hleft
          have hright := ih (List.mem_cons_of_mem _ List.mem_cons_self) right hright
          have hon := headed_unbroken (fun c hc => hwhole.part (List.mem_cons_of_mem _
            (List.mem_cons_of_mem _ (Option.mem_toList.mpr hc)))) hon
          simp only [List.forall_mem_append, List.forall_mem_cons]
          exact ⟨⟨hleft, trivial, hright⟩, hon⟩
      | _ => cases h

/-! Lines -/

theorem lineBreak_append (body : String) : (lineBreak width depth ++ body).toList =
    '\n' :: Line.indented width ⟨depth, body⟩ := by
  simp [lineBreak, Line.indented, Nat.mul_comm]

theorem add_indented (line : Line) (text : String) :
    (line.add text).indented width = line.indented width ++ text.toList := by
  simp [Line.add, Line.indented]

/-- Reading the lines off the text of segments. -/
theorem splitOn_segmentsText (line : Line) (depth : Nat) (hline : OneLine line.body)
    (h : ∀ s ∈ ss, s.Unbroken) :
    (line.indented width ++ (segmentsText width depth ss).toList).splitOn '\n' =
      (lines line depth ss).map (Line.indented width) := by
  have hnewline {line : Line} (h : OneLine line.body) : '\n' ∉ line.indented width := by
    simp only [Line.indented, List.mem_append, List.mem_replicate, not_or]
    exact ⟨by simp, h⟩
  -- The line that has begun is carried along: only a line break ends it.
  induction ss generalizing line depth with
  | nil =>
      have hlast : (segmentsText width depth []).toList = [] := rfl
      rw [hlast, List.append_nil]
      exact List.splitOn_eq_singleton (hnewline hline)
  | cons s ss ih =>
      obtain ⟨hs, hss⟩ := List.forall_mem_cons.mp h
      cases s with
      | words text =>
          have hadd : OneLine (line.add text).body := hline.append hs
          rw [segmentsText, String.toList_append, ← List.append_assoc, ← add_indented]
          exact ih _ _ hadd hss
      | opening =>
          have hadd : OneLine (line.add "(").body := hline.append (by decide)
          rw [segmentsText, String.toList_append, ← List.append_assoc, ← add_indented]
          exact ih _ _ hadd hss
      | heading head =>
          have hkeyword : OneLine head.keyword := by
            cases head with
            | join kind => cases kind <;> decide
            | _ => decide
          rw [segmentsText, String.toList_append, lineBreak_append, List.cons_append,
            List.splitOn_append_cons_self_of_not_mem (hnewline hline),
            ih ⟨depth + head.inset, head.keyword⟩ depth hkeyword hss]
          rfl
      | closing =>
          rw [segmentsText, String.toList_append, lineBreak_append, List.cons_append,
            List.splitOn_append_cons_self_of_not_mem (hnewline hline),
            ih ⟨depth - 1, ")"⟩ (depth - 1) (by decide : OneLine ")") hss]
          rfl

theorem Flush.append {s : String} (h : Flush s) (t : String) : Flush (s ++ t) := by
  unfold Flush at h ⊢
  rw [String.toList_append]
  cases hs : s.toList with
  | nil => simp [hs] at h
  | cons c cs => simpa [hs] using h

theorem Heading.flush_keyword (h : Heading) : Flush h.keyword := by
  cases h with
  | join kind => cases kind <;> decide
  | _ => decide

theorem flush_lines {line : Line} (h : Flush line.body) :
    ∀ l ∈ lines line depth ss, Flush l.body := by
  induction ss generalizing line depth with
  | nil => exact List.forall_mem_singleton.mpr h
  | cons s ss ih =>
      cases s with
      | words text => exact ih (h.append text)
      | opening => exact ih (h.append "(")
      | heading head => exact List.forall_mem_cons.mpr ⟨h, ih head.flush_keyword⟩
      | closing => exact List.forall_mem_cons.mpr ⟨h, ih (by decide : Flush ")")⟩

theorem dropWhile_indented {line : Line} (h : Flush line.body) :
    (line.indented width).dropWhile (· = ' ') = line.body.toList := by
  have hspaces : ∀ c ∈ List.replicate (width * line.depth) ' ', decide (c = ' ') := by
    simp [List.mem_replicate]
  rw [Line.indented, List.dropWhile_append_of_pos hspaces]
  unfold Flush at h
  cases hbody : line.body.toList with
  | nil => rfl
  | cons c cs =>
      rw [hbody] at h
      exact List.dropWhile_cons_of_neg (by simpa using h)

/-! Queries -/

theorem unbroken_selected {s : Select Expr} (hs : e.selected? = some s)
    (h : Unbroken style e) : Unbroken style (.select s) := by
  cases e with
  | select s' =>
      cases hs
      exact h
  | projection p =>
      cases hs
      refine ⟨Expr.forall_mem_nodes.mpr ⟨fun _ hx => h.name hx, fun c hc => ?_⟩, ?_⟩
      · exact (h.part hc).names
      · exact fun x hx => h.payloads x (Expr.payloads_projection p ▸ hx)
  | _ => cases hs

theorem selectSegments_lays (s : Select Expr) :
    Lays width (selectText (style.withIndent width) s)
      ((selectSegments style s).map (.words Heading.columns.keyword :: ·)) :=
  selectText_lays (sourceText_lays s.source)

theorem format_withIndent {s : Select Expr} (hs : e.selected? = some s) (width : Nat) :
    format (style.withIndent width) e = (selectSegments style s).map fun ss =>
      Heading.columns.keyword ++ segmentsText width 0 ss := by
  have hselect : (selectText (style.withIndent width) s).run' 0 =
      (selectSegments style s).map fun ss =>
        Heading.columns.keyword ++ segmentsText width 0 ss := by
    rw [StateT.run'_eq, selectSegments_lays s 0]
    cases selectSegments style s <;> rfl
  cases e with
  | select s' =>
      cases hs
      exact hselect
  | projection p =>
      cases hs
      exact hselect
  | _ => cases hs

theorem textLines_query (h : ∀ s ∈ ss, s.Unbroken) :
    textLines (Heading.columns.keyword ++ segmentsText width 0 ss) =
      (queryLines ss).map (Line.indented width) := by
  have hkeyword : OneLine Heading.columns.keyword := by decide
  rw [textLines, String.toList_append]
  exact splitOn_segmentsText ⟨0, Heading.columns.keyword⟩ 0 hkeyword h

theorem unindented_query (h : ∀ s ∈ ss, s.Unbroken) :
    unindented (Heading.columns.keyword ++ segmentsText width 0 ss) =
      (queryLines ss).map fun line => line.body.toList := by
  rw [unindented, textLines_query h, List.map_map]
  refine List.map_congr_left fun line hline => ?_
  exact dropWhile_indented (flush_lines Heading.columns.flush_keyword line hline)

theorem selectText_depth {s : Select Expr} {r : String × Nat}
    (h : (selectText (style.withIndent width) s).run depth = .ok r) : r.2 = depth := by
  rw [selectSegments_lays s depth, map_eq_ok] at h
  obtain ⟨ss, hss, rfl⟩ := h
  obtain ⟨rest, hrest, rfl⟩ := map_eq_ok.mp hss
  exact keepsDepth_selectSegments (fun _ => keepsDepth_sourceSegments) hrest depth

theorem sourceText_depth {r : String × Nat}
    (h : (sourceText (style.withIndent width) e).run depth = .ok r) : r.2 = depth := by
  rw [sourceText_lays e depth, map_eq_ok] at h
  obtain ⟨ss, hss, rfl⟩ := h
  exact keepsDepth_sourceSegments hss depth

/-- Lowers the depth by one, or does something else where it is zero. -/
def lowerOr (underflow : Layout Unit) : Layout Unit := do
  if (← get) = 0 then underflow else modify (· - 1)

/-- The line of a condition, with the depth lowered in a given way after it. -/
def conditionLine (style : Style) (lower : Layout Unit) (e : Expr) : Layout String := do
  let line ← newline style .inner
  let condition ← predicateText style e
  lower
  return line ++ "ON " ++ condition

theorem conditionText_eq_lowerOr (underflow : Layout Unit) (e : Expr) :
    conditionText style (some e) = conditionLine style (lowerOr underflow) e := by
  funext depth
  simp only [conditionText, conditionLine]
  -- The line stands one level deeper than some depth, so that there is a level to go back.
  cases predicateText style e with
  | error err => rfl
  | ok condition => rfl

/-- A query is written with one width of indentation if it is with another. Each line begins with as
many times the width in spaces as there are selects open around it, one more for the condition of a
join, and the lines are otherwise the same. Selects and sources, joins among them, leave the depth
as they find it, and it is never zero where it is lowered after a condition. -/
theorem layout_follows_nesting {s : Select Expr} (hs : e.selected? = some s)
    (hwhole : Unbroken style e) :
    (∀ w₁ w₂, (∃ t, format (style.withIndent w₁) e = .ok t) ↔
      ∃ t, format (style.withIndent w₂) e = .ok t) ∧
    (∀ w t, format (style.withIndent w) e = .ok t → ∃ ss, selectSegments style s = .ok ss ∧
      textLines t = (queryLines ss).map (Line.indented w) ∧
      ∀ line ∈ queryLines ss, Flush line.body) ∧
    (∀ w depth r,
      (∀ select, (selectText (style.withIndent w) select).run depth = .ok r → r.2 = depth) ∧
      ∀ source, (sourceText (style.withIndent w) source).run depth = .ok r → r.2 = depth) ∧
    (∀ w underflow condition, conditionText (style.withIndent w) (some condition) =
      conditionLine (style.withIndent w) (lowerOr underflow) condition) ∧
    ∀ w₁ w₂ t₁ t₂, format (style.withIndent w₁) e = .ok t₁ →
      format (style.withIndent w₂) e = .ok t₂ → unindented t₁ = unindented t₂ := by
  have hunbroken (ss) (hss : selectSegments style s = .ok ss) : ∀ s ∈ ss, s.Unbroken := by
    have hwhole := unbroken_selected hs hwhole
    have hsource : s.source ∈ (Expr.select s).writtenParts := by
      simp [Expr.writtenParts, Expr.children, Select.children]
    have hsource : Unbroken style s.source := hwhole.part hsource
    exact selectSegments_unbroken hwhole (fun _ => sourceSegments_unbroken hsource) hss
  have hwritten (w t) : format (style.withIndent w) e = .ok t ↔
      ∃ ss, selectSegments style s = .ok ss ∧
        Heading.columns.keyword ++ segmentsText w 0 ss = t := by
    rw [format_withIndent hs, map_eq_ok]
  refine ⟨fun w₁ w₂ => ?_, fun w t ht => ?_, fun w depth r => ?_, fun w underflow condition => ?_,
    fun w₁ w₂ t₁ t₂ h₁ h₂ => ?_⟩
  · simp [hwritten]
  · obtain ⟨ss, hss, rfl⟩ := (hwritten w t).mp ht
    refine ⟨ss, hss, textLines_query (hunbroken ss hss), ?_⟩
    exact flush_lines Heading.columns.flush_keyword
  · exact ⟨fun _ => selectText_depth, fun _ => sourceText_depth⟩
  · exact conditionText_eq_lowerOr underflow condition
  · obtain ⟨ss, hss, rfl⟩ := (hwritten w₁ t₁).mp h₁
    obtain ⟨ss', hss', rfl⟩ := (hwritten w₂ t₂).mp h₂
    obtain rfl : ss = ss' := Except.ok.inj (hss.symm.trans hss')
    rw [unindented_query (hunbroken ss hss), unindented_query (hunbroken ss hss)]

/-- The pets of the owners of a name, by a join with a select. -/
def petsOfNamed : Expr :=
  let named : Expr := .select ⟨"t2", [("Id", .column ⟨"t1", "Id", 0, .int32⟩)],
    .table ⟨"owners", "t1", "Owner"⟩,
    some (.binary (.comparison .eq) (.column ⟨"t1", "Name", 1, .text⟩)
      (.constant (.text "Ann") .text))⟩
  .select ⟨"t3", [("Name", .column ⟨"t0", "Name", 1, .text⟩)],
    .join .inner (.table ⟨"pets", "t0", "Pet"⟩) named
      (some (.binary (.comparison .eq) (.column ⟨"t0", "OwnerId", 2, .int32⟩)
        (.column ⟨"t2", "Id", 0, .int32⟩))), none⟩

theorem layout_follows_nesting_of_petsOfNamed : ∃ t t' ss,
    format (Style.withIndent {} 2) petsOfNamed = .ok t ∧
      format (Style.withIndent {} 4) petsOfNamed = .ok t' ∧ unindented t = unindented t' ∧
        textLines t = (queryLines ss).map (Line.indented 2) ∧
          (queryLines ss).map (·.depth) = [0, 0, 0, 1, 1, 1, 0, 1] := by
  have hwhole : Unbroken {} petsOfNamed := ⟨by decide, by decide⟩
  obtain ⟨s, hs⟩ : ∃ s, petsOfNamed.selected? = some s := ⟨_, rfl⟩
  have hdepths : (selectSegments {} s).map (fun ss => (queryLines ss).map (·.depth)) =
      .ok [0, 0, 0, 1, 1, 1, 0, 1] := by
    cases hs
    rfl
  obtain ⟨hwidths, hlines, -, -, hsame⟩ := layout_follows_nesting hs hwhole
  have hok : ∃ t, format (Style.withIndent {} 2) petsOfNamed = .ok t := ⟨_, by cbv⟩
  obtain ⟨t, ht⟩ := hok
  obtain ⟨t', ht'⟩ := (hwidths 2 4).mp ⟨t, ht⟩
  obtain ⟨ss, hss, htext, -⟩ := hlines 2 t ht
  rw [hss] at hdepths
  exact ⟨t, t', ss, ht, ht', hsame 2 4 t t' ht ht', htext, Except.ok.inj hdepths⟩

end Sql

end Quarry
