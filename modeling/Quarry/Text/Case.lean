import Quarry.Text.CaseData
/-!
Full upper and lower case of text. A capital sigma at the end of a word becomes the final form.
-/
namespace Quarry.Text

/-- The shift that the table gives a code point. -/
def shiftOf? (table : List (Run × Int)) (n : Nat) : Option Int :=
  (table.find? fun entry => entry.1.contains n).map (·.2)

def mapCase (expansions : List (Nat × List Nat)) (shifts : List (Run × Int)) (c : Char) :
    List Char :=
  match expansions.lookup c.toNat, shiftOf? shifts c.toNat with
  | some codes, _ => codes.map Char.ofNat
  | none, some shift => [Char.ofNat (c.toNat + shift).toNat]
  | none, none => [c]

/-- ASCII letters need no table. -/
def lowerChar (c : Char) : List Char :=
  if c.toNat < 0x80 then [c.toLower] else mapCase lowerExpansions lowerShifts c

def upperChar (c : Char) : List Char :=
  if c.toNat < 0x80 then [c.toUpper] else mapCase upperExpansions upperShifts c

def isUppercase (c : Char) : Bool :=
  if c.toNat < 0x80 then c.isUpper else uppercaseRuns.any (·.contains c.toNat)

/-- Whether the first character that is not case-ignorable is a cased letter. -/
def startsCased (cs : List Char) : Bool :=
  match cs.dropWhile fun c => caseIgnorableRuns.any (·.contains c.toNat) with
  | c :: _ => casedRuns.any (·.contains c.toNat)
  | [] => false

/-- Lowers the rest of a text; `before` is what stands before it, the nearest first. -/
def lowerAfter (before : List Char) : List Char → List Char
  | [] => []
  | c :: rest =>
    let lowered :=
      if c = 'Σ' then [if startsCased before && !startsCased rest then 'ς' else 'σ']
      else lowerChar c
    lowered ++ lowerAfter (c :: before) rest

def lower (cs : List Char) : List Char := lowerAfter [] cs

def upper (cs : List Char) : List Char := cs.flatMap upperChar

end Quarry.Text
