import Stencil.Diagnostic
import Stencil.Token.Reading

/-!
# Syntax faults

Everything that can be wrong with the text of a template or an expression, each with its place. The
message and the diagnostic of a fault are functions of it.
-/

namespace Stencil

/-- What should stand where something else does. -/
inductive Expected where
  | closing
  | ending
  | stageName
  | expression
  | mark (mark : Mark)
deriving DecidableEq

/-- What is wrong with a source. -/
inductive SyntaxFault where
  /-- A token that cannot be read. -/
  | lexical (fault : LexicalFault) (span : Span)
  /-- A template expression that is never closed, by the offset of its opening braces. -/
  | unclosed (opening : Nat)
  /-- No expression at all. -/
  | empty (span : Span)
  /-- A token where another was expected. -/
  | unexpected (expected : Expected) (found : Token)
  /-- A name that is neither a keyword nor called. -/
  | bareName (name : Text) (span : Span)
  /-- A conditional call with too few or too many arguments. -/
  | conditionalArity (span : Span)
  /-- A number literal that is out of range. -/
  | hugeNumber (span : Span)
  /-- An expression nested deeper than allowed. -/
  | tooDeep (offset : Nat)
  /-- A template longer than allowed. -/
  | tooLong (limit : Quantity) (size : Nat)
deriving DecidableEq

/-- The words for what was expected. -/
def Expected.text : Expected → Text
  | .closing => "Expected '\x7d\x7d'"
  | .ending => "Expected end of expression"
  | .stageName => "Expected a function name after '|'"
  | .expression => "Expected an expression"
  | .mark m => "Expected '" ++ m.text ++ "'"

/-- The words for a token that was found. -/
def Token.found (t : Token) : Text :=
  if t.lexeme = .eof then "end of expression" else "'" ++ t.raw ++ "'"

namespace LexicalFault

/-- The message. -/
def message : LexicalFault → Text
  | .unexpectedUnit u => "Unexpected character \"" ++ [u] ++ "\""
  | .malformedNumber => "Malformed number literal"
  | .unterminatedString => "Unterminated string literal"
  | .unknownSource => "Unknown data source"
  | .invalidNode => "Invalid node reference"
  | .missingVariable => "Environment reference requires a variable name"
  | .missingSegment => "Expected a path segment after '.'"

/-- The hint. -/
def hint? : LexicalFault → Option Text
  | .unexpectedUnit u => if u = '=' then some "did you mean '=='?" else none
  | .unknownSource =>
    some "expected $input, $node('id'), $env, $system, $execution or $workflow"
  | .invalidNode => some "expected $node('id')"
  | .missingVariable => some "use $env.NAME"
  | _ => none

end LexicalFault

namespace SyntaxFault

/-- The message. -/
def message : SyntaxFault → Text
  | .lexical fault _ => fault.message
  | .unclosed _ => "Unclosed expression"
  | .empty _ => "Empty expression"
  | .unexpected expected found => expected.text ++ ", found " ++ found.found
  | .bareName .. => "Unknown literal type"
  | .conditionalArity _ => "If function requires 2 or 3 arguments"
  | .hugeNumber _ => "Malformed number literal"
  | .tooDeep _ => "Maximum expression depth exceeded"
  | .tooLong .. => "Maximum template length exceeded"

/-- The hint. -/
def hint? : SyntaxFault → Option Text
  | .lexical fault _ => fault.hint?
  | .unclosed _ => some "add '\x7d\x7d' to close the expression"
  | .bareName name _ =>
    if isKeywordOperator name then
      some ("'" ++ name ++ "' is an operator and needs a left-hand operand")
    else some ("functions are called as " ++ name ++ "(...)")
  | _ => none

/-- Where the fault lies. -/
def index : SyntaxFault → Quantity
  | .lexical _ span | .empty span | .bareName _ span | .conditionalArity span
  | .hugeNumber span => span.start
  | .unclosed opening => opening
  | .unexpected _ found => found.span.start
  | .tooDeep offset => offset
  | .tooLong limit _ => limit

/-- How long the part at fault is. -/
def length : SyntaxFault → Quantity
  | .lexical _ span | .empty span | .bareName _ span | .conditionalArity span
  | .hugeNumber span => span.length
  | .unclosed _ => .whole 2
  | .unexpected _ found => (Nat.max 1 found.span.length : Nat)
  | .tooDeep _ => .whole 1
  | .tooLong limit size => (size : Quantity).sub limit

/-- Whether the fault is a limit that was exceeded, and not malformed syntax. -/
def isLimit : SyntaxFault → Bool
  | .tooDeep _ | .tooLong .. => true
  | _ => false

/-- The diagnostic of a fault in a source. -/
def diagnostic (source : Text) (fault : SyntaxFault) : Diagnostic :=
  if fault.isLimit then
    .build .limit fault.message ⟨some source, some fault.index, some fault.length, none⟩ none
  else .parse fault.message source fault.index (some fault.length) fault.hint? none

end SyntaxFault

end Stencil
