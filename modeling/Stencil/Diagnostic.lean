import Stencil.Source.Snippet
import Stencil.Text.Point
import Stencil.Value.Host

/-!
# Diagnostics

A diagnostic is what is told of a failure: its category, a message, the place in the source with a
snippet, a hint, and what caused it.
-/

namespace Stencil

/-- The categories of failures, each with what only it tells. -/
inductive Category where
  /-- Malformed syntax, at an offset counted in code units and in UTF-8 bytes. -/
  | parse (position : Quantity) (byteOffset : Nat)
  /-- An operation that is not supported. -/
  | evaluation (context : Option Text)
  /-- A function that is missing or failed, with the arguments it was given. -/
  | function (name : Text) (args : List Text)
  /-- A value that does not convert. -/
  | conversion (conversion : Conversion)
  /-- A reference that does not resolve, and those that could be used instead. -/
  | dataNotFound (path : Text) (available : List Text)
  /-- A call that does not fit the signature of its function. -/
  | signature (name : Text)
  /-- An arithmetic failure. -/
  | math
  /-- An array index out of bounds. -/
  | index (position size : Quantity)
  /-- A limit that was exceeded. -/
  | limit
  /-- A failure that a function of the host reports of its own. -/
  | custom (code : Option Text)

namespace Category

/-- The name of the category. -/
def name : Category → Text
  | .parse .. => "ParseError"
  | .evaluation _ => "EvaluationError"
  | .function .. => "FunctionError"
  | .conversion _ => "TypeConversionError"
  | .dataNotFound .. => "DataNotFoundError"
  | .signature _ => "SignatureError"
  | .math => "MathError"
  | .index .. => "IndexError"
  | .limit => "LimitError"
  | .custom _ => "CustomError"

/-- The stable code of the category. -/
def code : Category → Text
  | .parse .. => "E_PARSE"
  | .evaluation _ => "E_EVALUATION"
  | .function .. => "E_FUNCTION"
  | .conversion _ => "E_TYPE"
  | .dataNotFound .. => "E_DATA_NOT_FOUND"
  | .signature _ => "E_SIGNATURE"
  | .math => "E_MATH"
  | .index .. => "E_INDEX"
  | .limit => "E_LIMIT"
  | .custom _ => "E_CUSTOM"

/-- The message of a category, around what is told about the single failure. -/
def message (detail : Text) : Category → Text
  | .function name _ => "Function '" ++ name ++ "': " ++ detail
  | .conversion c =>
    let base : Text := "Cannot convert " ++ c.source ++ " to " ++ c.target
    match c.detail with
    | some d => if d.isEmpty then base else base ++ " (" ++ d ++ ")"
    | none => base
  | .dataNotFound path _ => "Data not found: " ++ path
  | .signature name => "Invalid call to '" ++ name ++ "': " ++ detail
  | .index position size =>
    "Index " ++ position.text ++ " out of bounds (size " ++ size.text ++ ")"
  | _ => detail

/-- The hint that a category has of itself. -/
def hint? : Category → Option Text
  | .dataNotFound _ available =>
    if available.isEmpty then none else some ("available: " ++ Text.join ", " available)
  | _ => none

end Category

/-- Where a failure lies, as far as it is known, and a hint about it. -/
structure Location where
  source : Option Text := none
  index : Option Quantity := none
  length : Option Quantity := none
  hint : Option Text := none

/-- What caused a failure: an error with a message, or something else that was thrown. -/
inductive Cause where
  | error (message : Text)
  | thrown (text : Text)

/-- What is told of a failure. The index is known without a source, all else about the place only
with one. -/
structure Diagnostic where
  category : Category
  message : Text
  index : Option Quantity
  line : Option Nat
  column : Option Quantity
  snippet : Text
  hint : Option Text
  cause : Option Cause

namespace Diagnostic

/-- The index, unless it is negative or not a number. -/
def usable (index : Option Quantity) : Option Quantity :=
  index.filter fun i => (Quantity.whole 0).le i

/-- The diagnostic of a failure. `detail` is what its message says beyond the category. -/
def build (category : Category) (detail : Text) (location : Location) (cause : Option Cause) :
    Diagnostic :=
  let message := category.message detail
  let hint := location.hint <|> category.hint?
  let index := usable location.index
  match location.source, index with
  | some source, some i =>
    let snippet := Snippet.build source i (location.length.getD (.whole 1)) message
    ⟨category, message, index, some snippet.place.line.number, some snippet.place.column,
      snippet.text, hint, cause⟩
  | _, _ => ⟨category, message, index, none, none, [], hint, cause⟩

/-- Malformed syntax at a position of a source. -/
def parse (message source : Text) (position : Quantity) (length : Option Quantity)
    (hint : Option Text) (cause : Option Cause) : Diagnostic :=
  let before := source.take (position.cut source.length)
  build (.parse position (Text.utf8Size before)) message ⟨some source, some position, length, hint⟩
    cause

end Diagnostic

/-- The category of a value fault, with its particulars. -/
def ValueFault.category : ValueFault → Category
  | .notFinite x => .conversion ⟨"float", "integer", some (x.text ++ " is not finite")⟩
  | .outOfRange x =>
    .conversion ⟨"float", "integer", some (x.text ++ " is outside the safe integer range")⟩
  | .notBoolean t =>
    .conversion ⟨"string", "boolean", some ("unrecognized value \"" ++ t ++ "\"")⟩
  | .notInteger t => .conversion ⟨"string", "integer", some ("\"" ++ t ++ "\" is not an integer")⟩
  | .notNumber t => .conversion ⟨"string", "float", some ("\"" ++ t ++ "\" is not a number")⟩
  | .unsuitable found wanted =>
    .conversion ⟨found.name, wanted.name, if wanted = .length then some "length" else none⟩
  | .notIndex => .conversion ⟨"string", "array index", none⟩
  | .outOfBounds index size => .index index size

/-- The category of a refusal of host data. What the host refuses itself has none. -/
def HostFault.category? : HostFault → Option Category
  | .function => some (.conversion ⟨"function", "value", none⟩)
  | .symbol => some (.conversion ⟨"symbol", "value", none⟩)
  | .circular => some (.conversion ⟨"circular structure", "value", none⟩)
  | .instance name =>
    some (.conversion ⟨if name.isEmpty then "object instance" else name, "value", none⟩)
  | .noConstructor | .invalidDate => none

/-- A failure without a place in a source. -/
def Category.diagnostic (category : Category) : Diagnostic := .build category [] {} none

end Stencil
