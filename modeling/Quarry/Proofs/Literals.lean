import Mathlib
import Quarry.Sql.Scalar
/-!
Literals inside of a query text. A quote opens a literal, two quotes inside of it stand for one, and
a single quote closes it. By this rule a text splits into what stands outside of literals and the
payloads of the literals, and texts that are put together split into the parts of each, as long as no
two literals meet.
-/
namespace Quarry.Sql

/-! The literal rule -/

/-- A part of a query text. -/
inductive Piece where
  | outside (c : Char)
  | literal (payload : String)
  deriving DecidableEq

/-- Splits a text, of which `read` has been read of an open literal. A literal has to be closed. -/
def splitFrom : Option (List Char) → List Char → Option (List Piece)
  | none, [] => some []
  | none, '\'' :: rest => splitFrom (some []) rest
  | none, c :: rest => (splitFrom none rest).map (.outside c :: ·)
  | some _, [] => none
  | some read, '\'' :: '\'' :: rest => splitFrom (some (read ++ ['\''])) rest
  | some read, '\'' :: rest => (splitFrom none rest).map (.literal (.ofList read) :: ·)
  | some read, c :: rest => splitFrom (some (read ++ [c])) rest

/-- Splits a text by the literal rule. -/
def split (text : String) : Option (List Piece) := splitFrom none text.toList

/-- The text outside of literals, with a gap in the place of each literal. -/
def outline (pieces : List Piece) : List (Option Char) :=
  pieces.map fun
    | .outside c => some c
    | .literal _ => none

def literals (pieces : List Piece) : List String :=
  pieces.filterMap fun
    | .outside _ => none
    | .literal payload => some payload

/-- A text without quotes. -/
def Plain (s : String) : Prop := '\'' ∉ s.toList

instance (s : String) : Decidable (Plain s) := inferInstanceAs (Decidable (_ ∉ _))

theorem Plain.append {s t : String} (hs : Plain s) (ht : Plain t) : Plain (s ++ t) := by
  simp only [Plain, String.toList_append, List.mem_append, not_or]
  exact ⟨hs, ht⟩

theorem Plain.head_append {s : String} (hs : Plain s) (hne : s ≠ "") (t : String) :
    (s ++ t).toList.head? ≠ some '\'' := by
  rw [String.toList_append]
  cases hcs : s.toList with
  | nil => exact absurd (String.toList_eq_nil_iff.mp hcs) hne
  | cons c cs =>
      rintro ⟨⟩
      exact hs (by simp [hcs])

theorem splitFrom_plain {cs : List Char} (h : '\'' ∉ cs) (rest : List Char) :
    splitFrom none (cs ++ rest) = (splitFrom none rest).map (cs.map .outside ++ ·) := by
  induction cs with
  | nil => simp
  | cons c cs ih =>
      simp only [List.mem_cons, not_or] at h
      have hstep : splitFrom none (c :: (cs ++ rest)) =
          (splitFrom none (cs ++ rest)).map (.outside c :: ·) := by
        rw [splitFrom]
        exact fun hc => h.1 hc.symm
      rw [List.cons_append, hstep, ih h.2, Option.map_map]
      rfl

/-- The escaped form of a text is read back up to the quote that closes the literal. -/
theorem splitFrom_escape (cs read : List Char) {rest : List Char}
    (hrest : rest.head? ≠ some '\'') :
    splitFrom (some read) (escape cs ++ '\'' :: rest) =
      (splitFrom none rest).map (.literal (.ofList (read ++ cs)) :: ·) := by
  induction cs generalizing read with
  | nil =>
      rw [escape, List.nil_append, List.append_nil, splitFrom]
      rintro rest' rfl
      exact hrest rfl
  | cons c cs ih =>
      by_cases hc : c = '\''
      · subst hc
        have hescape : escape ('\'' :: cs) = '\'' :: '\'' :: escape cs := if_pos rfl
        rw [hescape, List.cons_append, List.cons_append, splitFrom, ih, List.append_assoc]
        rfl
      · have hescape : escape (c :: cs) = c :: escape cs := if_neg hc
        rw [hescape, List.cons_append, splitFrom, ih, List.append_assoc]
        · rfl
        · exact fun _ h => absurd h hc
        · exact fun h => absurd h hc

/-- A text is split into these pieces on its own, whatever follows it but a quote. -/
def Splits (t : String) (pieces : List Piece) : Prop :=
  ∀ rest : List Char, rest.head? ≠ some '\'' →
    splitFrom none (t.toList ++ rest) = (splitFrom none rest).map (pieces ++ ·)

namespace Splits

variable {s t u : String} {xs ys : List Piece}

theorem split (h : Splits t xs) : split t = some xs := by
  have hend := h [] (by simp)
  simpa [Sql.split, splitFrom] using hend

theorem prepend (hs : Plain s) (h : Splits t xs) :
    Splits (s ++ t) (s.toList.map .outside ++ xs) := by
  intro rest hrest
  rw [String.toList_append, List.append_assoc, splitFrom_plain hs, h rest hrest, Option.map_map]
  simp only [Function.comp_def, List.append_assoc]

theorem plain (hs : Plain s) : Splits s (s.toList.map .outside) := fun rest _ =>
  splitFrom_plain hs rest

theorem quoted (s : String) : Splits (quoted s) [.literal s] := by
  intro rest hrest
  have htext : (Sql.quoted s).toList ++ rest = '\'' :: (escape s.toList ++ '\'' :: rest) := by
    simp [Sql.quoted]
  rw [htext, splitFrom, splitFrom_escape _ _ hrest, List.nil_append, String.ofList_toList]
  rfl

/-- A literal is closed where a text follows that does not begin with a quote. -/
theorem append (ht : Splits t xs) (hu : Splits u ys) (hlead : u.toList.head? ≠ some '\'') :
    Splits (t ++ u) (xs ++ ys) := by
  intro rest hrest
  have hfollow : (u.toList ++ rest).head? ≠ some '\'' := by
    cases hu : u.toList with
    | nil => exact hrest
    | cons c cs =>
        rw [hu] at hlead
        exact hlead
  rw [String.toList_append, List.append_assoc, ht _ hfollow, hu rest hrest, Option.map_map]
  simp only [Function.comp_def, List.append_assoc]

end Splits

/-! Two texts at once -/

/-- Texts that are the same outside of literals, with these literals in the one and the other. -/
def Parallel (ps ps' : List String) (t t' : String) : Prop :=
  ∃ xs xs', Splits t xs ∧ Splits t' xs' ∧ outline xs = outline xs' ∧
    literals xs = ps ∧ literals xs' = ps'

theorem outline_append (xs ys : List Piece) : outline (xs ++ ys) = outline xs ++ outline ys :=
  List.map_append

theorem literals_append (xs ys : List Piece) : literals (xs ++ ys) = literals xs ++ literals ys :=
  List.filterMap_append

theorem literals_outside (cs : List Char) : literals (cs.map .outside) = [] := by
  simp [literals]

namespace Parallel

variable {ps ps' qs qs' : List String} {s t t' u u' : String}

theorem plain (hs : Plain s) : Parallel [] [] s s :=
  ⟨_, _, .plain hs, .plain hs, rfl, literals_outside _, literals_outside _⟩

theorem quoted (s s' : String) : Parallel [s] [s'] (quoted s) (quoted s') :=
  ⟨_, _, .quoted s, .quoted s', rfl, rfl, rfl⟩

theorem prepend (hs : Plain s) (h : Parallel ps ps' t t') : Parallel ps ps' (s ++ t) (s ++ t') := by
  obtain ⟨xs, xs', ht, ht', hout, rfl, rfl⟩ := h
  refine ⟨_, _, ht.prepend hs, ht'.prepend hs, ?_, ?_, ?_⟩
  · rw [outline_append, outline_append, hout]
  · rw [literals_append, literals_outside, List.nil_append]
  · rw [literals_append, literals_outside, List.nil_append]

theorem append (h : Parallel ps ps' t t') (k : Parallel qs qs' u u')
    (hu : u.toList.head? ≠ some '\'') (hu' : u'.toList.head? ≠ some '\'') :
    Parallel (ps ++ qs) (ps' ++ qs') (t ++ u) (t' ++ u') := by
  obtain ⟨xs, xs', ht, ht', htout, rfl, rfl⟩ := h
  obtain ⟨ys, ys', hs, hs', hsout, rfl, rfl⟩ := k
  refine ⟨_, _, ht.append hs hu, ht'.append hs' hu', ?_, literals_append _ _, literals_append _ _⟩
  rw [outline_append, outline_append, htout, hsout]

theorem follow (h : Parallel ps ps' t t') (hs : Plain s) : Parallel ps ps' (t ++ s) (t' ++ s) := by
  have hlead : s.toList.head? ≠ some '\'' := fun hhead => hs (List.mem_of_head? hhead)
  simpa only [List.append_nil] using h.append (.plain hs) hlead hlead

/-- Two texts with something between them, so that their literals do not meet. -/
theorem between (h : Parallel ps ps' t t') (k : Parallel qs qs' u u') (hs : Plain s)
    (hne : s ≠ "") : Parallel (ps ++ qs) (ps' ++ qs') (t ++ s ++ u) (t' ++ s ++ u') := by
  rw [String.append_assoc, String.append_assoc]
  exact h.append (k.prepend hs) (hs.head_append hne u) (hs.head_append hne u')

theorem operation {name : String} (h : Parallel ps ps' t t') (k : Parallel qs qs' u u')
    (hname : Plain name) :
    Parallel (ps ++ qs) (ps' ++ qs') (t ++ " " ++ name ++ " " ++ u)
      (t' ++ " " ++ name ++ " " ++ u') := by
  have hplain : Plain (" " ++ name ++ " ") :=
    ((by decide : Plain " ").append hname).append (by decide)
  have hne : " " ++ name ++ " " ≠ "" := by simp
  have h := h.between k hplain hne
  simpa only [String.append_assoc] using h

theorem wrap (h : Parallel ps ps' t t') (nested : Bool) :
    Parallel ps ps' (wrap nested t) (wrap nested t') := by
  cases nested with
  | false => exact h
  | true => exact (h.prepend (by decide)).follow (by decide)

end Parallel

/-- Lists of texts that are parallel one by one. -/
inductive ParallelAll : List String → List String → List String → List String → Prop
  | nil : ParallelAll [] [] [] []
  | cons {ps ps' qs qs' t t' ts ts'} (h : Parallel ps ps' t t') (k : ParallelAll qs qs' ts ts') :
      ParallelAll (ps ++ qs) (ps' ++ qs') (t :: ts) (t' :: ts')

namespace ParallelAll

variable {ps ps' qs qs' ts ts' us us' : List String} {s : String}

theorem append (h : ParallelAll ps ps' ts ts') (k : ParallelAll qs qs' us us') :
    ParallelAll (ps ++ qs) (ps' ++ qs') (ts ++ us) (ts' ++ us') := by
  induction h with
  | nil => exact k
  | cons h _ ih =>
      rw [List.append_assoc, List.append_assoc]
      exact .cons h ih

theorem ite {u u' : String} (h : ParallelAll ps ps' ts ts') (hs : Plain s)
    (k : Parallel ps ps' u u') :
    Parallel ps ps' (if ts.isEmpty then s else u) (if ts'.isEmpty then s else u') := by
  cases h with
  | nil => exact .plain hs
  | cons => exact k

theorem intercalate (h : ParallelAll ps ps' ts ts') (hs : Plain s) (hne : s ≠ "") :
    Parallel ps ps' (s.intercalate ts) (s.intercalate ts') := by
  induction h with
  | nil =>
      rw [String.intercalate_nil]
      exact .plain (by decide)
  | cons h k ih =>
      cases k with
      | nil => simpa using h
      | cons k k' =>
          rw [String.intercalate_cons_cons, String.intercalate_cons_cons]
          exact h.between ih hs hne

end ParallelAll

/-! Literals of numbers -/

/-- A text without quotes, and with no dash but the sign. -/
def Signed (negative : Bool) (s : String) : Prop :=
  ∃ cs, (∀ c ∈ cs, c ≠ '\'' ∧ c ≠ '-') ∧ s.toList = if negative then '-' :: cs else cs

theorem signed_ofList {negative : Bool} {cs : List Char} (h : ∀ c ∈ cs, c.isDigit ∨ c = '.') :
    Signed negative (String.ofList (if negative then '-' :: cs else cs)) := by
  refine ⟨cs, fun c hc => ?_, String.toList_ofList⟩
  rcases h c hc with hdigit | rfl
  · constructor <;>
    · rintro rfl
      exact absurd hdigit (by decide)
  · decide

theorem Signed.plain {negative : Bool} {s : String} (h : Signed negative s) : Plain s := by
  obtain ⟨cs, hcs, hs⟩ := h
  have hunsigned : '\'' ∉ cs := fun hc => (hcs _ hc).1 rfl
  rw [Plain, hs]
  cases negative with
  | false => exact hunsigned
  | true => simpa using hunsigned

theorem isDigit_of_mem_digits {n : Nat} {c : Char} (h : c ∈ Decimal.digits n) : c.isDigit :=
  Nat.isDigit_of_mem_toDigits (by decide) (by decide) h

theorem signed_ofInt (n : Int) : Signed (n < 0) (Decimal.ofInt n) := by
  have htext : Decimal.ofInt n = String.ofList
      (if decide (n < 0) then '-' :: Decimal.digits n.natAbs else Decimal.digits n.natAbs) := by
    unfold Decimal.ofInt
    by_cases hn : n < 0 <;> simp [hn]
  rw [htext]
  exact signed_ofList fun c hc => .inl (isDigit_of_mem_digits hc)

theorem mem_positional {n : Nat} {place : Int} {c : Char} (h : c ∈ Decimal.positional n place) :
    c.isDigit ∨ c = '.' := by
  have hzeros {k : Nat} (hc : c ∈ List.replicate k '0') : c.isDigit :=
    List.eq_of_mem_replicate hc ▸ rfl
  have hpadded {k : Nat} (hc : c ∈ List.replicate k '0' ++ Decimal.digits n) : c.isDigit :=
    (List.mem_append.mp hc).elim hzeros isDigit_of_mem_digits
  unfold Decimal.positional at h
  dsimp only at h
  split at h
  · exact .inl ((List.mem_append.mp h).elim isDigit_of_mem_digits hzeros)
  · split at h
    · exact .inl (hpadded (List.mem_of_mem_take h))
    · rw [List.mem_append, List.mem_cons, List.mem_reverse] at h
      rcases h with h | h | h
      · exact .inl (hpadded (List.mem_of_mem_take h))
      · exact .inr h
      · have h := (List.dropWhile_sublist _).mem h
        exact .inl (hpadded (List.mem_of_mem_drop (List.mem_reverse.mp h)))

theorem negative_of_ofBinary64? {x : Binary64} {s : Scaled} (h : Scaled.ofBinary64? x = some s) :
    s.negative = (x.isNegative && !x.isNaN) := by
  unfold Scaled.ofBinary64? at h
  split at h
  next => cases h
  next hfinite =>
    have hnan : x.isNaN = false := by simp [Binary64.isNaN, hfinite]
    rw [hnan, Bool.not_false, Bool.and_true]
    split at h <;> exact Option.some.inj h ▸ rfl

theorem signed_ofBinary64 (x : Binary64) :
    Signed (x.isNegative && !x.isNaN) (Decimal.ofBinary64 x) := by
  unfold Decimal.ofBinary64
  split
  next s hs =>
    rw [← negative_of_ofBinary64? hs]
    refine signed_ofList fun c hc => ?_
    split at hc
    · exact .inl (List.mem_singleton.mp hc ▸ rfl)
    · exact mem_positional hc
  next =>
    cases x.isNaN with
    | true => exact ⟨['N', 'a', 'N'], by simp, by simp⟩
    | false =>
        cases x.isNegative <;> exact ⟨['i', 'n', 'f'], by simp, rfl⟩

end Quarry.Sql
