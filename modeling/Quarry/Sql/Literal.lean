import Quarry.Value
/-!
Literals of the query text. A quote inside a text is written twice.
-/
namespace Quarry.Sql

def escape : List Char → List Char
  | [] => []
  | c :: rest => if c = '\'' then '\'' :: '\'' :: escape rest else c :: escape rest

def quoted (s : String) : String := "'" ++ String.ofList (escape s.toList) ++ "'"

/-- Records and lists have no literal. -/
def literal : Value → Except Error String
  | .null => .ok "NULL"
  | .boolean b => .ok (if b then "1" else "0")
  | .char c => .ok (quoted (String.singleton c))
  | .text s => .ok (quoted s)
  | .record fields => .error (.unsupportedConstant (Value.display (.record fields)))
  | .list values => .error (.unsupportedConstant (Value.display (.list values)))
  | v => .ok v.display

end Quarry.Sql
