/-!
Errors: a class, a message, ordered key and value fields, and the text of an underlying cause.
The wording of every failure of the library stands here.
-/
namespace Quarry

/-- The coarse class of an error, by which callers tell user mistakes from broken invariants. -/
inductive ErrorKind where
  | unsupported
  | internal
  | singlePass
  | outOfRange
  | missingMapping
  | conversion
  | other
  deriving DecidableEq, Repr

def ErrorKind.text : ErrorKind → String
  | .unsupported => "unsupported"
  | .internal => "internal"
  | .singlePass => "single pass"
  | .outOfRange => "out of range"
  | .missingMapping => "missing mapping"
  | .conversion => "conversion"
  | .other => "other"

structure Error where
  message : String
  kind : ErrorKind := .other
  fields : List (String × String) := []
  /-- The text of the failure underneath, if this error wraps one. -/
  cause : Option String := none
  deriving DecidableEq, Repr

namespace Error

def withKind (e : Error) (kind : ErrorKind) : Error := { e with kind }

/-- Attaches a field after those already attached. -/
def withField (e : Error) (key value : String) : Error :=
  { e with fields := e.fields ++ [(key, value)] }

/-- The value of the first field with this key. -/
def field? (e : Error) (key : String) : Option String := e.fields.lookup key

/-- The message, one line for each field, and the cause last. -/
def text (e : Error) : String :=
  let lines := e.fields.map fun (key, value) => "\n" ++ key ++ ": " ++ value
  let cause := match e.cause with
    | some cause => "\nError source: " ++ cause
    | none => ""
  e.message ++ String.join lines ++ cause

/-- Puts an error under a new message; its class and fields stay in the cause's text only. -/
def context (e : Error) (message : String) : Error := { message, cause := some e.text }

/-- Adds the most similar known name as a hint. -/
def withHint (e : Error) : Option String → Error
  | some name => e.withField "did you mean" name
  | none => e

def unsupported (message : String) : Error := { message, kind := .unsupported }

def internal (message : String) : Error := { message, kind := .internal }

def outOfRange (message : String) : Error := { message, kind := .outOfRange }

def missingMapping (message : String) : Error := { message, kind := .missingMapping }

def conversion (message : String) : Error := { message, kind := .conversion }

/-- A value that must be present is absent. -/
def required (what : String) : Error := internal s!"Missing required value: {what}"

def notImplemented (what : String) : Error := unsupported s!"Not yet implemented: {what}"

/-- A text sink refused what was written to it. -/
def formatting : Error :=
  { message := "Format error", cause := some "an error occurred when formatting an argument" }

/-! Conversions -/

/-- A number lies above the range of the integer type it is converted to. -/
def integerTooLarge : Error :=
  { message := "Int conversion error", kind := .conversion,
    cause := some "number too large to fit in target type" }

/-- A number lies below the range of the integer type it is converted to. -/
def integerTooSmall : Error :=
  { message := "Int conversion error", kind := .conversion,
    cause := some "number too small to fit in target type" }

def cannotConvert (value type : String) : Error := conversion s!"Cannot convert '{value}' to {type}"

def unexpectedNull (type : String) : Error :=
  conversion s!"Unexpected NULL for non-nullable {type}"

def unexpectedAfterCast (type value : String) : Error :=
  conversion s!"Expected {type} after cast, got {value}"

def expectedRecord (value : String) : Error := conversion s!"Expected a record, got {value}"

def expectedList (value : String) : Error := conversion s!"Expected a list, got {value}"

def missingField (name : String) : Error := missingMapping s!"Record is missing field '{name}'"

/-! Settings -/

def invalidIdentifierCase (name : String) : Error :=
  { message := s!"Invalid identifier case '{name}', expected one of 'preserve', 'snake_lower', "
      ++ "'snake_upper'" }

def invalidSettings : Error := { message := "Failed to parse provider config" }

def indentTooWide : Error := { message := "Indent width cannot be greater than 16" }

def missingSetting (name : String) : Error := missingMapping s!"Missing setting for '{name}'"

/-! Catalog -/

def missingMember (name entity : String) : Error :=
  missingMapping s!"Missing member '{name}' on entity '{entity}'"

def duplicateEntity (entity : String) : Error :=
  { message := s!"Entity '{entity}' already registered" }

def mismatchedEntity (name entity : String) : Error :=
  internal s!"Table info for '{name}' describes entity '{entity}'"

def missingTable (entity : String) : Error :=
  missingMapping s!"Missing table mapping for entity '{entity}'"

def unmappedType (type : String) : Error :=
  missingMapping s!"Type {type} is not a mapped entity"

/-! Evaluation -/

def missingRecordMember (name : String) : Error :=
  missingMapping s!"Record is missing member '{name}'"

def memberOfNonRecord (name value : String) : Error :=
  { message := s!"Cannot access member '{name}' on {value}" }

def characterIndexArity : Error := internal "Character index expects one argument"

def characterIndexOutOfRange (index text : String) : Error :=
  outOfRange s!"Index {index} out of range for '{text}'"

/-- A node that has no value outside of a query. -/
def notEvaluable (kind expression : String) : Error :=
  (unsupported s!"Cannot evaluate {kind} outside of a query").withField "expression" expression

def negationOverflow : Error := { message := "Integer overflow on negation" }

def integerOverflow (operator : String) : Error :=
  { message := s!"Integer overflow evaluating '{operator}'" }

def divisionByZero : Error := { message := "Division by zero" }

def notComparableNaN : Error := { message := "Cannot compare NaN values" }

def unaryMismatch (operator value : String) : Error :=
  unsupported s!"Cannot apply unary operator '{operator}' to {value}"

def notComparable (left right : String) : Error :=
  unsupported s!"Cannot compare {left} with {right}"

def binaryMismatch (operator left right : String) : Error :=
  unsupported s!"Cannot apply '{operator}' to {left} and {right}"

/-! Binding -/

def expectedQuery (kind expression : String) : Error :=
  (unsupported s!"Expected a query, got {kind} expression").withField "expression" expression

def expectedQuerySource (kind expression : String) : Error :=
  (unsupported s!"Expected a query source, got {kind} expression").withField "expression" expression

def strayLambda : Error :=
  unsupported "Lambdas are only supported as arguments to query methods"

def strayOuterRow : Error := internal "Outer row references cannot appear before binding"

def unsupportedMethod (name : String) : Error :=
  unsupported s!"The method '{name}' is not supported"

def expectedLambda (kind : String) : Error :=
  unsupported s!"Expected a lambda, got {kind} expression"

def wrongArity (subject : String) (expected got : Nat) : Error :=
  unsupported s!"Expected {expected} arguments for {subject}, got {got}"

def characterIndexInstance : Error := unsupported "Character index requires a string instance"

def existenceInstance (function kind : String) : Error :=
  unsupported s!"{function} is only supported on a table collection, got {kind} expression"

def existenceWithoutInstance (function : String) : Error :=
  unsupported s!"{function} requires a collection instance"

def missingConstructorMember (name type : String) : Error :=
  missingMapping s!"Missing member '{name}' on {type}"

/-! Query text -/

def unsupportedSource (kind expression : String) : Error :=
  (unsupported s!"The {kind} expression is not supported as a query source").withField
    "expression" expression

def unsupportedInText (kind expression : String) : Error :=
  (unsupported s!"The {kind} expression is not supported in query text").withField
    "expression" expression

def unsupportedConstant (value : String) : Error :=
  unsupported s!"The constant '{value}' is not supported in query text"

def commandParameter (table expected got : String) : Error :=
  unsupported s!"Command predicate over '{table}' must take a {expected} parameter, got {got}"

def emptyUpdate (table : String) : Error :=
  { message := s!"Update of '{table}' requires at least one assignment" }

/-! Rows -/

def foreignColumn (label name row : String) : Error :=
  internal s!"Column '{label}.{name}' does not belong to row alias '{row}'"

def notMaterializable (kind expression : String) : Error :=
  (unsupported s!"Cannot materialize {kind} expression").withField "expression" expression

def ordinalOutOfRange (ordinal count : Nat) : Error :=
  (outOfRange s!"Ordinal {ordinal} out of range").withField "field_count" (toString count)

def readerNotPositioned : Error := { message := "Reader is not positioned on a row" }

def cursorNotPositioned : Error := { message := "Cursor is not positioned on a row" }

def noEnclosingRow (depth : Nat) : Error := internal s!"No enclosing row at depth {depth}"

def expectedSelect (kind : String) : Error :=
  internal s!"Expected select after evaluation, got {kind}"

def noResponse (command : String) : Error :=
  ({ message := "No response for command" } : Error).withField "command" command

def readFailed : Error := { message := "read failed" }

/-- Projections stand deeper one inside the other than a materializer allows for. -/
def nestedTooDeep : Error := internal "Sub-queries are nested too deep"

def enumeratedTwice : Error :=
  { message := "Query results can only be enumerated once", kind := .singlePass }

end Error

end Quarry
