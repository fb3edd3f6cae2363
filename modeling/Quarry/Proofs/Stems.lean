import Mathlib
import Quarry.Identifier
/-!
Names and the digits at their end. A name that is brought to a case keeps these digits, and nothing
before them becomes a digit; so names that are written alike end in the same digits, and their stems
are written alike too.
-/
namespace Quarry

namespace Text

/-- The last character, if there is one, is no digit. -/
def EndsPlain (cs : List Char) : Prop := ∀ c ∈ cs.getLast?, c.isDigit = false

variable {c : Char} {cs ds : List Char}

theorem isDigit_iff : c.isDigit ↔ 48 ≤ c.toNat ∧ c.toNat ≤ 57 := by
  simp [Char.isDigit, UInt32.le_iff_toNat_le]

theorem forall_digit {P : Char → Prop} (h : ∀ n < 10, P (Char.ofNat (48 + n))) (hc : c.isDigit) :
    P c := by
  obtain ⟨hle, hge⟩ := isDigit_iff.mp hc
  have hP := h (c.toNat - 48) (by omega)
  rwa [Nat.add_sub_cancel' hle, Char.ofNat_toNat] at hP

theorem lowerChar_digit (h : c.isDigit) : lowerChar c = [c] :=
  forall_digit (P := fun c => lowerChar c = [c]) (by decide) h

theorem upperChar_digit (h : c.isDigit) : upperChar c = [c] :=
  forall_digit (P := fun c => upperChar c = [c]) (by decide) h

theorem isUppercase_digit (h : c.isDigit) : isUppercase c = false :=
  forall_digit (P := fun c => isUppercase c = false) (by decide) h

theorem startsCased_digit (h : c.isDigit) (cs : List Char) : startsCased (c :: cs) = false := by
  have hignorable : caseIgnorableRuns.any (·.contains c.toNat) = false :=
    forall_digit (P := fun c => caseIgnorableRuns.any (·.contains c.toNat) = false)
      (by decide +kernel) h
  rw [startsCased, List.dropWhile_cons_of_neg (by simp [hignorable])]
  exact forall_digit (P := fun c => casedRuns.any (·.contains c.toNat) = false)
    (by decide +kernel) h

/-! What stands before digits -/

theorem startsCased_append (hds : ∀ d ∈ ds, d.isDigit) (cs : List Char) :
    startsCased (cs ++ ds) = startsCased cs := by
  induction cs with
  | nil =>
      cases ds with
      | nil => rfl
      | cons d ds => exact startsCased_digit (hds d List.mem_cons_self) ds
  | cons c cs ih =>
      unfold startsCased at ih ⊢
      rw [List.cons_append, List.dropWhile_cons, List.dropWhile_cons]
      by_cases hc : caseIgnorableRuns.any (·.contains c.toNat)
      · rwa [if_pos hc, if_pos hc]
      · rw [if_neg hc, if_neg hc]

theorem lowerAfter_digits (hds : ∀ d ∈ ds, d.isDigit) (before : List Char) :
    lowerAfter before ds = ds := by
  induction ds generalizing before with
  | nil => rfl
  | cons d ds ih =>
      have hd := hds d List.mem_cons_self
      have hsigma : d ≠ 'Σ' := by
        rintro rfl
        exact absurd hd (by decide)
      rw [lowerAfter, if_neg hsigma, lowerChar_digit hd,
        ih fun x hx => hds x (List.mem_cons_of_mem d hx)]
      rfl

theorem lowerAfter_append (hds : ∀ d ∈ ds, d.isDigit) (before cs : List Char) :
    lowerAfter before (cs ++ ds) = lowerAfter before cs ++ ds := by
  induction cs generalizing before with
  | nil => exact lowerAfter_digits hds before
  | cons c cs ih =>
      rw [List.cons_append, lowerAfter, lowerAfter, ih, startsCased_append hds, List.append_assoc]

theorem lower_append (hds : ∀ d ∈ ds, d.isDigit) (cs : List Char) :
    lower (cs ++ ds) = lower cs ++ ds :=
  lowerAfter_append hds [] cs

theorem upper_append (hds : ∀ d ∈ ds, d.isDigit) (cs : List Char) :
    upper (cs ++ ds) = upper cs ++ ds := by
  have hall : ds.flatMap upperChar = ds.flatMap fun d => [d] :=
    List.flatMap_congr fun d hd => upperChar_digit (hds d hd)
  rw [upper, List.flatMap_append, hall, List.flatMap_singleton']
  rfl

/-! No case of a character ends in a digit, unless it is one -/

theorem endsPlain_append (hne : cs ≠ []) (h : EndsPlain cs) (before : List Char) :
    EndsPlain (before ++ cs) := by
  rwa [EndsPlain, List.getLast?_append_of_ne_nil _ hne]

theorem endsPlain_singleton (h : c.isDigit = false) : EndsPlain [c] := by
  simpa [EndsPlain] using h

theorem endsPlain_cases (h : EndsPlain cs) :
    cs = [] ∨ ∃ init c, cs = init ++ [c] ∧ c.isDigit = false := by
  cases hlast : cs.getLast? with
  | none => exact .inl (List.getLast?_eq_none_iff.mp hlast)
  | some c =>
      obtain ⟨init, rfl⟩ := List.getLast?_eq_some_iff.mp hlast
      exact .inr ⟨init, c, rfl, h c hlast⟩

/-- A text is told from the digits behind it. -/
theorem append_digits_inj {cs' ds' : List Char} (h : EndsPlain cs) (h' : EndsPlain cs')
    (hds : ∀ d ∈ ds, d.isDigit) (hds' : ∀ d ∈ ds', d.isDigit) (heq : cs ++ ds = cs' ++ ds') :
    cs = cs' ∧ ds = ds' := by
  have hempty {xs ys : List Char} (hplain : EndsPlain (xs ++ ys)) (hys : ∀ d ∈ ys, d.isDigit) :
      ys = [] := by
    rcases ys.eq_nil_or_concat' with rfl | ⟨init, d, rfl⟩
    · rfl
    · have hd := hplain d (by simp)
      rw [hys d (by simp)] at hd
      cases hd
  -- the longer of the two texts would end in digits of the other
  rcases List.append_eq_append_iff.mp heq with ⟨mid, rfl, rfl⟩ | ⟨mid, rfl, rfl⟩
  · obtain rfl := hempty h' fun d hd => hds d (List.mem_append_left _ hd)
    simp
  · obtain rfl := hempty h fun d hd => hds' d (List.mem_append_left _ hd)
    simp

/-- Whether the shift takes no code point of the run to a digit. -/
def avoidsDigits (entry : Run × Int) : Bool :=
  decide (57 < (entry.1.first : Int) + entry.2) || decide ((entry.1.last : Int) + entry.2 < 48)

/-- Whether the code points end in one that is no digit. -/
def endsInLetter (codes : List Nat) : Bool :=
  codes.getLast?.any fun n => (Char.ofNat n).isDigit = false

theorem shift_plain {shifts : List (Run × Int)} {n : Nat} {shift : Int}
    (hshifts : shifts.all avoidsDigits) (h : shiftOf? shifts n = some shift) :
    (Char.ofNat (n + shift).toNat).isDigit = false := by
  obtain ⟨entry, hfind, rfl⟩ := Option.map_eq_some_iff.mp h
  have havoids := List.all_eq_true.mp hshifts entry (List.mem_of_find?_eq_some hfind)
  have hrun := List.find?_some hfind
  simp only [Run.contains, avoidsDigits, Bool.and_eq_true, Bool.or_eq_true, decide_eq_true_eq]
    at hrun havoids
  rw [Bool.eq_false_iff, ne_eq, isDigit_iff, Char.toNat_ofNat]
  split <;> omega

theorem mapCase_plain {expansions : List (Nat × List Nat)} {shifts : List (Run × Int)}
    (hexpansions : expansions.all fun x => endsInLetter x.2) (hshifts : shifts.all avoidsDigits)
    (h : c.isDigit = false) :
    mapCase expansions shifts c ≠ [] ∧ EndsPlain (mapCase expansions shifts c) := by
  unfold mapCase
  split
  next codes hlookup =>
    obtain ⟨before, after, rfl, -⟩ := List.lookup_eq_some_iff.mp hlookup
    have hcodes : endsInLetter codes := List.all_eq_true.mp hexpansions (c.toNat, codes) (by simp)
    obtain ⟨n, hlast, hplain⟩ := (Option.any_eq_true _ _).mp hcodes
    obtain ⟨init, rfl⟩ := List.getLast?_eq_some_iff.mp hlast
    rw [List.map_append, List.map_singleton]
    exact ⟨by simp, endsPlain_append (by simp) (endsPlain_singleton (by simpa using hplain)) _⟩
  next shift _ hshift => exact ⟨by simp, endsPlain_singleton (shift_plain hshifts hshift)⟩
  next => exact ⟨by simp, endsPlain_singleton h⟩

theorem forall_ascii {P : Char → Prop} (h : ∀ n < 0x80, P (Char.ofNat n)) (hc : c.toNat < 0x80) :
    P c := by
  have hP := h c.toNat hc
  rwa [Char.ofNat_toNat] at hP

theorem lowerChar_plain (h : c.isDigit = false) : lowerChar c ≠ [] ∧ EndsPlain (lowerChar c) := by
  unfold lowerChar
  split
  next hascii =>
    refine ⟨by simp, endsPlain_singleton ?_⟩
    exact forall_ascii (P := fun c => c.isDigit = false → c.toLower.isDigit = false) (by decide)
      hascii h
  next => exact mapCase_plain (by decide +kernel) (by decide +kernel) h

theorem upperChar_plain (h : c.isDigit = false) : upperChar c ≠ [] ∧ EndsPlain (upperChar c) := by
  unfold upperChar
  split
  next hascii =>
    refine ⟨by simp, endsPlain_singleton ?_⟩
    exact forall_ascii (P := fun c => c.isDigit = false → c.toUpper.isDigit = false) (by decide)
      hascii h
  next => exact mapCase_plain (by decide +kernel) (by decide +kernel) h

theorem lowerAfter_concat (hc : c.isDigit = false) (init before : List Char) :
    EndsPlain (lowerAfter before (init ++ [c])) ∧ lowerAfter before (init ++ [c]) ≠ [] := by
  induction init generalizing before with
  | nil =>
      rw [List.nil_append, lowerAfter, lowerAfter, List.append_nil]
      split
      · split <;> exact ⟨endsPlain_singleton (by decide), by simp⟩
      · exact (lowerChar_plain hc).symm
  | cons x init ih =>
      obtain ⟨hplain, hne⟩ := ih (x :: before)
      rw [List.cons_append, lowerAfter]
      exact ⟨endsPlain_append hne hplain _, List.append_ne_nil_of_right_ne_nil _ hne⟩

/-- A text ends in a digit once it is lowered only if it did before. -/
theorem lower_plain (h : EndsPlain cs) : EndsPlain (lower cs) := by
  rcases endsPlain_cases h with rfl | ⟨init, c, rfl, hc⟩
  · exact h
  · exact (lowerAfter_concat hc init []).1

theorem upper_plain (h : EndsPlain cs) : EndsPlain (upper cs) := by
  rcases endsPlain_cases h with rfl | ⟨init, c, rfl, hc⟩
  · exact h
  · obtain ⟨hne, hplain⟩ := upperChar_plain hc
    rw [upper, List.flatMap_append, List.flatMap_singleton]
    exact endsPlain_append hne hplain _

end Text

namespace IdentifierCase

open Text

variable {cs ds : List Char}

/-- The words of a text that goes on. -/
def openWords (previous : Char) : List Char → List Char
  | [] => []
  | c :: rest =>
    if isUppercase c && !isUppercase previous && previous ≠ '_' then
      '_' :: c :: openWords c rest
    else c :: openWords c rest

theorem splitWordsAfter_concat (c previous : Char) (cs : List Char) :
    splitWordsAfter previous (cs ++ [c]) = openWords previous cs ++ [c] := by
  induction cs generalizing previous with
  | nil => rfl
  | cons x cs ih =>
      rw [List.cons_append, splitWordsAfter, openWords, ih]
      · split <;> rfl
      · simp

/-- An underscore stands before no word. -/
theorem splitWords_eq (cs : List Char) : splitWords cs = splitWordsAfter '_' cs := by
  rcases cs with _ | ⟨c, _ | ⟨c', rest⟩⟩
  · rfl
  · rfl
  · simp [splitWords, splitWordsAfter]

theorem splitWords_concat (c : Char) (cs : List Char) :
    splitWords (cs ++ [c]) = openWords '_' cs ++ [c] := by
  rw [splitWords_eq, splitWordsAfter_concat]

theorem openWords_digits (hds : ∀ d ∈ ds, d.isDigit) (previous : Char) :
    openWords previous ds = ds := by
  induction ds generalizing previous with
  | nil => rfl
  | cons d ds ih =>
      rw [openWords, isUppercase_digit (hds d List.mem_cons_self),
        ih fun x hx => hds x (List.mem_cons_of_mem d hx)]
      rfl

theorem openWords_append (hds : ∀ d ∈ ds, d.isDigit) (previous : Char) (cs : List Char) :
    openWords previous (cs ++ ds) = openWords previous cs ++ ds := by
  induction cs generalizing previous with
  | nil => exact openWords_digits hds previous
  | cons c cs ih =>
      rw [List.cons_append, openWords, openWords, ih]
      split <;> rfl

theorem openWords_concat (c previous : Char) (cs : List Char) :
    ∃ before, openWords previous (cs ++ [c]) = before ++ [c] := by
  induction cs generalizing previous with
  | nil =>
      rw [List.nil_append, openWords]
      split
      · exact ⟨['_'], rfl⟩
      · exact ⟨[], rfl⟩
  | cons x cs ih =>
      obtain ⟨before, hbefore⟩ := ih x
      rw [List.cons_append, openWords, hbefore]
      split
      · exact ⟨'_' :: x :: before, rfl⟩
      · exact ⟨x :: before, rfl⟩

theorem splitWords_append (hne : ds ≠ []) (hds : ∀ d ∈ ds, d.isDigit) (cs : List Char) :
    splitWords (cs ++ ds) = openWords '_' cs ++ ds := by
  obtain ⟨init, d, rfl⟩ := ds.eq_nil_or_concat'.resolve_left hne
  rw [← List.append_assoc, splitWords_concat,
    openWords_append fun x hx => hds x (List.mem_append_left _ hx), List.append_assoc]

/-- How a text is written before digits. -/
def written (style : IdentifierCase) (cs : List Char) : List Char :=
  match style with
  | .preserve => cs
  | .snakeLower => lower (openWords '_' cs)
  | .snakeUpper => upper (openWords '_' cs)

variable (style : IdentifierCase)

theorem normalize_append (hne : ds ≠ []) (hds : ∀ d ∈ ds, d.isDigit) (cs : List Char) :
    (style.normalize (.ofList (cs ++ ds))).toList = style.written cs ++ ds := by
  cases style with
  | preserve => simp [normalize, written]
  | snakeLower => simp [normalize, written, splitWords_append hne hds, lower_append hds]
  | snakeUpper => simp [normalize, written, splitWords_append hne hds, upper_append hds]

theorem openWords_plain (h : EndsPlain cs) : EndsPlain (openWords '_' cs) := by
  rcases endsPlain_cases h with rfl | ⟨init, c, rfl, hc⟩
  · exact h
  · obtain ⟨before, hbefore⟩ := openWords_concat c '_' init
    exact hbefore ▸ endsPlain_append (by simp) (endsPlain_singleton hc) before

theorem splitWords_plain (h : EndsPlain cs) : EndsPlain (splitWords cs) := by
  rcases endsPlain_cases h with rfl | ⟨init, c, rfl, hc⟩
  · exact h
  · exact splitWords_concat c init ▸ endsPlain_append (by simp) (endsPlain_singleton hc) _

theorem written_plain (h : EndsPlain cs) : EndsPlain (style.written cs) := by
  cases style with
  | preserve => exact h
  | snakeLower => exact lower_plain (openWords_plain h)
  | snakeUpper => exact upper_plain (openWords_plain h)

theorem normalize_plain (h : EndsPlain cs) : EndsPlain (style.normalize (.ofList cs)).toList := by
  cases style with
  | preserve => simpa [normalize] using h
  | snakeLower => simpa [normalize] using lower_plain (splitWords_plain h)
  | snakeUpper => simpa [normalize] using upper_plain (splitWords_plain h)

end IdentifierCase

/-! Stems -/

/-- A name without the digits at its end. -/
def stem (name : String) : String := .ofList (name.toList.rdropWhile Char.isDigit)

/-- The digits at the end of a name. -/
def numeral (name : String) : List Char := name.toList.rtakeWhile Char.isDigit

theorem ofList_stem_append (name : String) :
    .ofList ((stem name).toList ++ numeral name) = name := by
  rw [stem, numeral, String.toList_ofList, List.rdropWhile_append_rtakeWhile, String.ofList_toList]

theorem isDigit_of_mem_numeral {name : String} : ∀ d ∈ numeral name, d.isDigit :=
  fun _ hd => List.mem_rtakeWhile_imp hd

theorem stem_plain (name : String) : Text.EndsPlain (stem name).toList := by
  rw [stem, String.toList_ofList]
  intro c hc
  have hne : name.toList.rdropWhile Char.isDigit ≠ [] :=
    List.ne_nil_of_mem (List.mem_of_getLast? hc)
  have hlast := List.rdropWhile_last_not _ _ hne
  rw [List.getLast?_eq_some_getLast hne, Option.mem_some] at hc
  simpa [hc] using hlast

/-- More digits do not change the stem. -/
theorem stem_append {digits : String} (h : ∀ d ∈ digits.toList, d.isDigit) (name : String) :
    stem (name ++ digits) = stem name := by
  have hname : (stem (name ++ digits)).toList ++ numeral (name ++ digits) =
      (stem name).toList ++ (numeral name ++ digits.toList) := by
    apply String.ofList_injective
    rw [ofList_stem_append, ← List.append_assoc, String.ofList_append, ofList_stem_append,
      String.ofList_toList]
  have hdigits : ∀ d ∈ numeral name ++ digits.toList, d.isDigit :=
    List.forall_mem_append.mpr ⟨isDigit_of_mem_numeral, h⟩
  exact String.toList_injective (Text.append_digits_inj (stem_plain _) (stem_plain _)
    isDigit_of_mem_numeral hdigits hname).1

namespace IdentifierCase

/-- A name is written as its stem and its digits, the stem in one of two ways. -/
theorem normalize_eq (style : IdentifierCase) (name : String) :
    (style.normalize name).toList =
      (if numeral name = [] then (style.normalize (stem name)).toList
        else style.written (stem name).toList) ++ numeral name := by
  split
  next hempty =>
    have hname := ofList_stem_append name
    rw [hempty, List.append_nil, String.ofList_toList] at hname
    rw [hempty, List.append_nil, hname]
  next hne =>
    rw [← normalize_append style hne isDigit_of_mem_numeral, ofList_stem_append]

/-- Names that are written alike have the same digits, and stems that are written alike. -/
theorem normalize_stem {style : IdentifierCase} {m n : String}
    (h : style.normalize m = style.normalize n) :
    (style.normalize (stem m) = style.normalize (stem n) ∨
      style.normalize (stem m ++ "0") = style.normalize (stem n ++ "0")) ∧
      numeral m = numeral n := by
  have hplain (name : String) : Text.EndsPlain (if numeral name = [] then
      (style.normalize (stem name)).toList else style.written (stem name).toList) := by
    split
    · simpa using style.normalize_plain (stem_plain name)
    · exact style.written_plain (stem_plain name)
  have hzero (name : String) :
      (style.normalize (name ++ "0")).toList = style.written name.toList ++ ['0'] := by
    have happend := style.normalize_append (List.cons_ne_nil '0' []) (by simp) name.toList
    rwa [String.ofList_append, String.ofList_toList] at happend
  have htext := congrArg String.toList h
  rw [normalize_eq style m, normalize_eq style n] at htext
  obtain ⟨hstem, hnumeral⟩ := Text.append_digits_inj (hplain m) (hplain n) isDigit_of_mem_numeral
    isDigit_of_mem_numeral htext
  refine ⟨?_, hnumeral⟩
  rw [hnumeral] at hstem
  split at hstem
  · exact .inl (String.toList_injective hstem)
  · exact .inr (String.toList_injective (by rw [hzero, hzero, hstem]))

/-- Names with these stems are told apart: no two of the stems are written alike, neither as names
nor before digits. -/
def TellsApart (style : IdentifierCase) (stems : List String) : Prop :=
  ∀ a ∈ stems, ∀ b ∈ stems, style.normalize a = style.normalize b ∨
    style.normalize (a ++ "0") = style.normalize (b ++ "0") → a = b

instance (style : IdentifierCase) (stems : List String) : Decidable (style.TellsApart stems) :=
  inferInstanceAs (Decidable (∀ a ∈ stems, ∀ b ∈ stems, _ → a = b))

/-- Names that are written alike are the same, if their stems are told apart. -/
theorem TellsApart.normalize_inj {style : IdentifierCase} {stems : List String}
    (h : style.TellsApart stems) {m n : String} (hm : stem m ∈ stems) (hn : stem n ∈ stems)
    (heq : style.normalize m = style.normalize n) : m = n := by
  obtain ⟨hstem, hnumeral⟩ := normalize_stem heq
  have happart := h _ hm _ hn hstem
  rw [← ofList_stem_append m, ← ofList_stem_append n, happart, hnumeral]

end IdentifierCase

end Quarry
