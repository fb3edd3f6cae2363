import Quarry.Identifier
import Quarry.Text.Json
import Quarry.Text.Jaro
import Quarry.Value
/-!
Settings of a query provider: read from JSON, and got, set and described one by one under a name.
-/
namespace Quarry

structure Settings where
  identifierCase : IdentifierCase := .snakeLower
  indentWidth : Nat := 2
  cacheMaterializers : Bool := true
  deriving DecidableEq

/-- A setting that can be got and set by name. -/
inductive Setting where
  | identifierCase
  | indentWidth
  | cacheMaterializers
  deriving DecidableEq

namespace Setting

/-- All settings, sorted by name. -/
def all : List Setting := [.cacheMaterializers, .identifierCase, .indentWidth]

def name : Setting → String
  | .identifierCase => "identifier_case"
  | .indentWidth => "indent_width"
  | .cacheMaterializers => "enable_materializer_cache"

def description : Setting → String
  | .identifierCase => "Case normalization applied to emitted identifiers"
  | .indentWidth => "Spaces per nesting level in formatted queries"
  | .cacheMaterializers => "Reuse compiled materializers within a provider"

def find (name : String) : Except Error Setting :=
  match all.find? (·.name = name) with
  | some setting => .ok setting
  | none =>
    .error ((Error.missingSetting name).withHint (Text.mostSimilar? (all.map Setting.name) name))

end Setting

namespace Settings

def validateWidth (width : Nat) : Except Error Unit :=
  if width ≤ 16 then .ok () else .error .indentTooWide

def get (s : Settings) : Setting → Value
  | .identifierCase => .text s.identifierCase.name
  | .indentWidth => .int64 (.ofNat s.indentWidth)
  | .cacheMaterializers => .boolean s.cacheMaterializers

/-- A number of spaces cannot be negative. -/
def widthOf (v : Value) : Except Error Nat := do
  let n ← v.asInt64
  if n.toInt < 0 then throw .integerTooSmall else return n.toInt.toNat

def set (s : Settings) (setting : Setting) (v : Value) : Except Error Settings :=
  match setting with
  | .identifierCase => do
    return { s with identifierCase := ← IdentifierCase.ofName (← v.asText) }
  | .indentWidth => do
    let width ← widthOf v
    validateWidth width
    return { s with indentWidth := width }
  | .cacheMaterializers => do
    return { s with cacheMaterializers := ← v.asBool }

/-- Brings one setting back to its default. -/
def reset (s : Settings) (setting : Setting) : Except Error Settings :=
  s.set setting (get {} setting)

/-! JSON -/

/-- A case is given by its name, or as an object with that name as its only key and no content. -/
def caseOfJson? : Json → Option IdentifierCase
  | .string name => IdentifierCase.ofName? name
  | .object [(name, .null)] => IdentifierCase.ofName? name
  | _ => none

/-- Accepts a number of 64 bits written with digits only. -/
def widthOfJson? : Json → Option Nat
  | .number text =>
    if text.toList.all Char.isDigit then
      let n := Decimal.ofDigits text.toList
      if n < UInt64.size then some n else none
    else none
  | _ => none

def flagOfJson? : Json → Option Bool
  | .bool b => some b
  | _ => none

def setJson? (s : Settings) (setting : Setting) (j : Json) : Option Settings :=
  match setting with
  | .identifierCase => (caseOfJson? j).map fun identifierCase => { s with identifierCase }
  | .indentWidth => (widthOfJson? j).map fun indentWidth => { s with indentWidth }
  | .cacheMaterializers =>
    (flagOfJson? j).map fun cacheMaterializers => { s with cacheMaterializers }

/-- Sets the fields in turn; every key names a setting, and each at most once. -/
def setFields? (s : Settings) (unset : List Setting) : List (String × Json) → Option Settings
  | [] => some s
  | (key, j) :: rest => do
    let setting ← unset.find? (·.name = key)
    let s ← s.setJson? setting j
    s.setFields? (unset.erase setting) rest

/-- Sets the leading settings of a fixed order. -/
def setItems? (s : Settings) : List Setting → List Json → Option Settings
  | _, [] => some s
  | [], _ :: _ => none
  | setting :: settings, j :: rest => do
    let s ← s.setJson? setting j
    s.setItems? settings rest

def ofJson? : Json → Option Settings
  | .object fields => setFields? {} Setting.all fields
  | .array items => setItems? {} [.identifierCase, .indentWidth, .cacheMaterializers] items
  | _ => none

/-- Reads settings from JSON text; what is not given has its default. -/
def parse (text : String) : Except Error Settings :=
  match (Json.parse? text).bind ofJson? with
  | none => .error .invalidSettings
  | some s => do
    validateWidth s.indentWidth
    return s

def toJson (s : Settings) : String :=
  (Json.object [
    (Setting.identifierCase.name, .string s.identifierCase.name),
    (Setting.indentWidth.name, .number (toString s.indentWidth)),
    (Setting.cacheMaterializers.name, .bool s.cacheMaterializers)]).render

end Settings

end Quarry
