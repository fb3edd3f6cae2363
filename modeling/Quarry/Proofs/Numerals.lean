import Mathlib
import Quarry.Proofs.Casting
import Quarry.Proofs.Integers
/-!
Integers and their texts. A text is cast to an integer exactly if a numeral in range stands between
its blanks, and the numeral says which integer that is. Booleans, integers and characters are read
back from their own texts.
-/
namespace Quarry

/-! Blanks around a text -/

namespace Text

variable {cs core before rest : List Char} {c : Char}

/-- What is left of a text without the blanks at both ends. -/
structure Strips (cs core : List Char) : Prop where
  around : ∃ before after, cs = before ++ core ++ after ∧ (∀ c ∈ before, isBlank c) ∧
    ∀ c ∈ after, isBlank c
  head : ∀ c ∈ core.head?, ¬ isBlank c
  last : ∀ c ∈ core.getLast?, ¬ isBlank c

theorem dropWhile_blanks (hbefore : ∀ c ∈ before, isBlank c)
    (hrest : ∀ c ∈ rest.head?, ¬ isBlank c) : (before ++ rest).dropWhile isBlank = rest := by
  rw [List.dropWhile_append_of_pos hbefore]
  cases rest with
  | nil => rfl
  | cons c rest => exact List.dropWhile_cons_of_neg (hrest c rfl)

theorem not_isBlank_of_head (h : c ∈ (cs.dropWhile isBlank).head?) : ¬ isBlank c := by
  have hfirst := List.head?_dropWhile_not isBlank cs
  rw [Option.mem_def.mp h] at hfirst
  exact Bool.eq_false_iff.mp hfirst

theorem Strips.trim_eq (h : Strips cs core) : trim cs = core := by
  obtain ⟨⟨before, after, rfl, hbefore, hafter⟩, hhead, hlast⟩ := h
  cases core with
  | nil =>
      have hblank : (before ++ [] ++ after).dropWhile isBlank = [] := by
        rw [List.append_nil, List.dropWhile_append_of_pos hbefore, List.dropWhile_eq_nil_iff]
        exact hafter
      rw [trim, hblank]
      rfl
  | cons c core =>
      have hfront : (before ++ (c :: core) ++ after).dropWhile isBlank = c :: core ++ after := by
        rw [List.append_assoc]
        exact dropWhile_blanks hbefore hhead
      have hback : (after.reverse ++ (c :: core).reverse).dropWhile isBlank =
          (c :: core).reverse := by
        refine dropWhile_blanks (fun d hd => hafter d (List.mem_reverse.mp hd)) fun d hd => ?_
        exact hlast d (List.head?_reverse ▸ hd)
      rw [trim, hfront, List.reverse_append, hback, List.reverse_reverse]

theorem strips_trim (cs : List Char) : Strips cs (trim cs) := by
  let rest := cs.dropWhile isBlank
  have hfront : cs.takeWhile isBlank ++ rest = cs := List.takeWhile_append_dropWhile
  have hback : trim cs ++ (rest.reverse.takeWhile isBlank).reverse = rest := by
    rw [trim, ← List.reverse_append, List.takeWhile_append_dropWhile, List.reverse_reverse]
  refine ⟨⟨cs.takeWhile isBlank, (rest.reverse.takeWhile isBlank).reverse, ?_, ?_, ?_⟩, ?_, ?_⟩
  · rw [List.append_assoc, hback, hfront]
  · exact fun c => List.mem_takeWhile_imp
  · exact fun c hc => List.mem_takeWhile_imp (List.mem_reverse.mp hc)
  · intro c hc
    have hhead : c ∈ rest.head? := by
      rw [← hback, List.head?_append, Option.mem_def.mp hc]
      rfl
    exact not_isBlank_of_head hhead
  · intro c hc
    rw [trim, List.getLast?_reverse] at hc
    exact not_isBlank_of_head hc

/-- Trimming leaves what stands between the blanks. -/
theorem strips_iff : Strips cs core ↔ trim cs = core :=
  ⟨Strips.trim_eq, fun h => h ▸ strips_trim cs⟩

theorem strips_self (h : ∀ c ∈ cs, ¬ isBlank c) : Strips cs cs where
  around := ⟨[], [], by simp, by simp, by simp⟩
  head c hc := h c (List.mem_of_mem_head? hc)
  last c hc := h c (List.mem_of_mem_getLast? hc)

end Text

/-! Numerals -/

namespace Decimal

variable {cs ds : List Char} {n : Int}

/-- One or more decimal digits. -/
def IsDigits (ds : List Char) : Prop := ds ≠ [] ∧ ∀ d ∈ ds, d.isDigit

/-- The number that decimal digits denote: each counts by its distance from the last. -/
def denoted (ds : List Char) : Nat := Nat.ofDigits 10 (ds.reverse.map fun d => d.toNat - '0'.toNat)

/-- An optional sign and one or more digits, and the integer that they denote. -/
inductive IsNumeral : List Char → Int → Prop
  | unsigned {ds : List Char} (h : IsDigits ds) : IsNumeral ds (denoted ds)
  | plus {ds : List Char} (h : IsDigits ds) : IsNumeral ('+' :: ds) (denoted ds)
  | minus {ds : List Char} (h : IsDigits ds) : IsNumeral ('-' :: ds) (-denoted ds)

theorem ofDigits_eq_denoted (ds : List Char) : ofDigits ds = denoted ds := by
  rw [denoted, Nat.ofDigits_eq_foldr, List.foldr_map, List.foldr_reverse]
  simp only [ofDigits, Nat.cast_id, Nat.add_comm]

theorem splitSign_of_isDigits (h : IsDigits ds) : splitSign ds = (false, ds) := by
  unfold splitSign
  split
  · exact absurd (h.2 '-' List.mem_cons_self) (by decide)
  · exact absurd (h.2 '+' List.mem_cons_self) (by decide)
  · rfl

theorem splitSign_cases (cs : List Char) :
    (∃ ds, cs = '-' :: ds ∧ splitSign cs = (true, ds)) ∨
      (∃ ds, cs = '+' :: ds ∧ splitSign cs = (false, ds)) ∨ splitSign cs = (false, cs) := by
  unfold splitSign
  split
  · exact .inl ⟨_, rfl, rfl⟩
  · exact .inr (.inl ⟨_, rfl, rfl⟩)
  · exact .inr (.inr rfl)

theorem toInt?_of_splitSign {negative : Bool} (h : splitSign cs = (negative, ds)) :
    toInt? cs = some n ↔
      IsDigits ds ∧ (if negative then -(denoted ds : Int) else denoted ds) = n := by
  rw [toInt?, h, Option.ite_none_left_eq_some, Option.some.injEq, ofDigits_eq_denoted]
  simp [IsDigits]

/-- Numerals are read as the integers that they denote, and nothing else is read. -/
theorem toInt?_eq_some : toInt? cs = some n ↔ IsNumeral cs n := by
  constructor
  · intro h
    rcases splitSign_cases cs with ⟨ds, rfl, hsplit⟩ | ⟨ds, rfl, hsplit⟩ | hsplit
    · obtain ⟨hds, rfl⟩ := (toInt?_of_splitSign hsplit).mp h
      exact .minus hds
    · obtain ⟨hds, rfl⟩ := (toInt?_of_splitSign hsplit).mp h
      exact .plus hds
    · obtain ⟨hds, rfl⟩ := (toInt?_of_splitSign hsplit).mp h
      exact .unsigned hds
  · intro h
    cases h with
    | unsigned h => exact (toInt?_of_splitSign (splitSign_of_isDigits h)).mpr ⟨h, rfl⟩
    | plus h => exact (toInt?_of_splitSign rfl).mpr ⟨h, rfl⟩
    | minus h => exact (toInt?_of_splitSign rfl).mpr ⟨h, rfl⟩

theorem isDigits_digits (n : Nat) : IsDigits (digits n) :=
  ⟨Nat.toDigits_ne_nil, fun _ => Nat.isDigit_of_mem_toDigits (by decide) (by decide)⟩

theorem denoted_digits (n : Nat) : denoted (digits n) = n := by
  rw [← ofDigits_eq_denoted]
  exact Nat.ofDigitChars_ten_toDigits

/-- An integer is written as a numeral that denotes it. -/
theorem isNumeral_ofInt (n : Int) : IsNumeral (ofInt n).toList n := by
  unfold ofInt
  split
  next hsign =>
    have h := IsNumeral.minus (isDigits_digits n.natAbs)
    rw [denoted_digits] at h
    rw [String.toList_ofList]
    convert h
    omega
  next hsign =>
    have h := IsNumeral.unsigned (isDigits_digits n.natAbs)
    rw [denoted_digits] at h
    rw [String.toList_ofList]
    convert h
    omega

theorem not_isBlank_of_isDigit {c : Char} (h : c.isDigit) : ¬ Text.isBlank c := by
  simp only [Char.isDigit, ge_iff_le, Bool.and_eq_true, decide_eq_true_eq,
    UInt32.le_iff_toNat_le] at h
  simp only [Text.isBlank, Char.toNat, decide_eq_true_eq]
  have hrange : 48 ≤ c.val.toNat ∧ c.val.toNat ≤ 57 := h
  omega

theorem IsNumeral.not_isBlank (h : IsNumeral cs n) : ∀ c ∈ cs, ¬ Text.isBlank c := by
  have hdigits {ds : List Char} (h : IsDigits ds) : ∀ c ∈ ds, ¬ Text.isBlank c := fun c hc =>
    not_isBlank_of_isDigit (h.2 c hc)
  cases h with
  | unsigned h => exact hdigits h
  | plus h => exact List.forall_mem_cons.mpr ⟨by decide, hdigits h⟩
  | minus h => exact List.forall_mem_cons.mpr ⟨by decide, hdigits h⟩

end Decimal

/-! Casts -/

namespace Value

variable {s : String} {w : Width} {v : Value} {n : Int}

/-- A text denotes an integer if it is a numeral with blanks around it. -/
def TextDenotes (s : String) (n : Int) : Prop :=
  ∃ core, Text.Strips s.toList core ∧ Decimal.IsNumeral core n

theorem textDenotes_iff :
    TextDenotes s n ↔ Decimal.toInt? (Text.trim s.toList) = some n := by
  simp only [TextDenotes, Text.strips_iff, exists_eq_left', Decimal.toInt?_eq_some]

theorem parse?_eq (s : String) (w : Width) :
    parse? s w.type = (Decimal.toInt? (Text.trim s.toList)).bind w.value? := by
  cases w with
  | int32 => exact Option.map_bind
  | int64 => exact Option.map_bind

/-- What a text is cast to. -/
theorem cast_text_eq_ok :
    (text s).cast w.type = .ok v ↔ ∃ n, TextDenotes s n ∧ v.IsInteger w n := by
  have hcast : (text s).cast w.type = .ok v ↔ parse? s w.type = some v := by
    rw [cast, castText]
    cases parse? s w.type <;> simp
  simp only [hcast, parse?_eq, Option.bind_eq_some_iff, textDenotes_iff, Width.value?_eq_some]

theorem textDenotes_ofInt (n : Int) : TextDenotes (Decimal.ofInt n) n :=
  have h := Decimal.isNumeral_ofInt n
  ⟨_, Text.strips_self h.not_isBlank, h⟩

theorem IsInteger.dataType_eq (h : v.IsInteger w n) : v.dataType = w.type := by
  cases h <;> rfl

theorem IsInteger.cast_text (h : v.IsInteger w n) :
    v.cast .text = .ok (.text (Decimal.ofInt n)) := by
  cases h <;> rfl

/-- The value has a text, from which it is read back. -/
def SurvivesText (v : Value) : Prop :=
  ∃ s, v.cast .text = .ok (.text s) ∧ (text s).cast v.dataType = .ok v

theorem IsInteger.survivesText (h : v.IsInteger w n) : v.SurvivesText := by
  refine ⟨_, h.cast_text, ?_⟩
  rw [h.dataType_eq, cast_text_eq_ok]
  exact ⟨n, textDenotes_ofInt n, h⟩

theorem char_survivesText (c : Char) : (char c).SurvivesText := by
  refine ⟨String.singleton c, rfl, ?_⟩
  simp [dataType, cast, castText, parse?]

theorem boolean_survivesText (b : Bool) : (boolean b).SurvivesText := by
  cases b with
  | false => exact ⟨"false", rfl, rfl⟩
  | true => exact ⟨"true", rfl, rfl⟩

/-- Scalars survive a trip through text. A text is cast to an integer of a width exactly if it is a
numeral between blanks that denotes an integer in range, and to this integer; and every boolean,
integer and character is what its text is cast to. -/
theorem scalars_survive_text :
    (∀ (s : String) (w : Width), w.ConvertsExactly (TextDenotes s) ((text s).cast w.type)) ∧
      ∀ v : Value, v.dataType ∈ [.boolean, .int32, .int64, .char] → v.SurvivesText := by
  refine ⟨fun s w => ?_, fun v hv => ?_⟩
  · exact Width.convertsExactly (fun v => cast_text_eq_ok) fun err =>
      (cast_converts (text s) w.type).kind
  · cases v with
    | boolean b => exact boolean_survivesText b
    | int32 n => exact (IsInteger.int32 n).survivesText
    | int64 n => exact (IsInteger.int64 n).survivesText
    | char c => exact char_survivesText c
    | list values => cases values <;> simp [dataType] at hv
    | _ => simp [dataType] at hv

/-- The least integer is read back with its sign, and zeros and a sign before a number within blanks
do not keep it from being read. -/
theorem scalars_survive_text_of_least :
    (int64 Int64.minValue).dataType ∈ [.boolean, .int32, .int64, .char] ∧
      (text "-9223372036854775808").cast .int64 = .ok (.int64 Int64.minValue) ∧
      TextDenotes "\u00a0+0080\n" 80 ∧ ∃ v, (text "\u00a0+0080\n").cast .int32 = .ok v := by
  obtain ⟨hconverts, hsurvives⟩ := scalars_survive_text
  have htype : (int64 Int64.minValue).dataType ∈ [.boolean, .int32, .int64, .char] := by decide
  obtain ⟨s, hs, hback⟩ := hsurvives (int64 Int64.minValue) htype
  have htext : (int64 Int64.minValue).cast .text = .ok (.text "-9223372036854775808") := by
    decide +kernel
  obtain rfl : s = "-9223372036854775808" := by
    have hsame := hs.symm.trans htext
    simpa using hsame
  have hdenotes : TextDenotes "\u00a0+0080\n" 80 := textDenotes_iff.mpr (by decide +kernel)
  refine ⟨htype, hback, hdenotes, ?_⟩
  exact (hconverts "\u00a0+0080\n" .int32).succeeds.mpr ⟨80, hdenotes, by decide⟩

end Value

end Quarry
