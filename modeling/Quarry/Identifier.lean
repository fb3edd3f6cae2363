import Quarry.Error
import Quarry.Text.Case
/-!
Identifiers as they are written in query text, and the case they are brought to.
-/
namespace Quarry

inductive IdentifierCase where
  /-- As declared. -/
  | preserve
  /-- Words joined by underscores, in lower case. -/
  | snakeLower
  /-- Words joined by underscores, in upper case. -/
  | snakeUpper
  deriving DecidableEq, Repr

namespace IdentifierCase

def name : IdentifierCase → String
  | .preserve => "preserve"
  | .snakeLower => "snake_lower"
  | .snakeUpper => "snake_upper"

def ofName? : String → Option IdentifierCase
  | "preserve" => some .preserve
  | "snake_lower" => some .snakeLower
  | "snake_upper" => some .snakeUpper
  | _ => none

def ofName (name : String) : Except Error IdentifierCase :=
  match ofName? name with
  | some style => .ok style
  | none => .error (.invalidIdentifierCase name)

/-- Marks the words in what follows the character `previous`: an underscore stands before a capital
that follows neither a capital nor an underscore. The last character never begins a word. -/
def splitWordsAfter (previous : Char) : List Char → List Char
  | [] => []
  | [c] => [c]
  | c :: rest =>
    if Text.isUppercase c && !Text.isUppercase previous && previous ≠ '_' then
      '_' :: c :: splitWordsAfter c rest
    else c :: splitWordsAfter c rest

def splitWords : List Char → List Char
  | [] => []
  | c :: rest => c :: splitWordsAfter c rest

def normalize (style : IdentifierCase) (ident : String) : String :=
  match style with
  | .preserve => ident
  | .snakeLower => String.ofList (Text.lower (splitWords ident.toList))
  | .snakeUpper => String.ofList (Text.upper (splitWords ident.toList))

end IdentifierCase

end Quarry
