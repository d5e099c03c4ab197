import Stencil.Expr.Operator
import Stencil.SyntaxFault

/-!
# Issues

What a validation finds. An issue has a violation, from which its code, rule, severity and message
follow, and a place in the source.
-/

namespace Stencil

/-- How grave an issue is. A template with an error should not be used; one with a warning can be
rendered, though some branch will fail. -/
inductive Severity where
  | error
  | warning
deriving DecidableEq

/-- What a validation finds. -/
inductive Violation where
  /-- More nodes than allowed, found when so many had been counted. -/
  | tooManyNodes (count : Nat) (limit : Quantity)
  /-- An expression nested deeper than allowed, found at a node of that depth. -/
  | tooDeep (depth : Nat) (limit : Quantity)
  /-- An operator that cannot be evaluated. -/
  | unsupported (op : BinaryOp)
  | functionNotAllowed (name : Text)
  | functionForbidden (name : Text)
  /-- A function that is not registered, in a registry that was set up or not. -/
  | unknownFunction (name : Text) (bound : Bool)
  /-- A number of arguments that the signature does not allow. -/
  | arity (name : Text) (given least : Nat) (most : Option Nat)
  | sourceNotAllowed (kind : Text)
  | sourceForbidden (kind : Text)
  /-- A source that is no template at all. -/
  | malformed (fault : SyntaxFault)
deriving DecidableEq

/-- A particular of a violation. -/
inductive Detail where
  | text (t : Text)
  | quantity (q : Quantity)

namespace Violation

/-- The stable code. -/
def code : Violation → Text
  | .tooManyNodes .. => "VAL_MAX_NODE_COUNT"
  | .tooDeep .. => "VAL_MAX_DEPTH"
  | .unsupported _ => "VAL_UNSUPPORTED_OPERATOR"
  | .functionNotAllowed _ => "VAL_FUNCTION_NOT_ALLOWED"
  | .functionForbidden _ => "VAL_FUNCTION_FORBIDDEN"
  | .unknownFunction .. => "VAL_UNKNOWN_FUNCTION"
  | .arity .. => "VAL_ARITY"
  | .sourceNotAllowed _ => "VAL_DATA_SOURCE_NOT_ALLOWED"
  | .sourceForbidden _ => "VAL_DATA_SOURCE_FORBIDDEN"
  | .malformed fault => if fault.isLimit then "E_LIMIT" else "E_PARSE"

/-- The rule that is violated. -/
def rule : Violation → Text
  | .tooManyNodes .. => "maxNodeCount"
  | .tooDeep .. => "maxAstDepth"
  | .unsupported _ => "operators"
  | .functionNotAllowed _ => "allowedFunctions"
  | .functionForbidden _ => "forbiddenFunctions"
  | .unknownFunction .. | .arity .. => "registry"
  | .sourceNotAllowed _ => "allowedDataSources"
  | .sourceForbidden _ => "forbiddenDataSources"
  | .malformed _ => "parse"

/-- Operators that cannot be evaluated are worth a warning, all else is an error. -/
def severity : Violation → Severity
  | .unsupported _ => .warning
  | _ => .error

/-- The counts that a signature allows, in words. -/
def arityText (least : Nat) : Option Nat → Text
  | none => "at least " ++ Text.ofNat least
  | some most =>
    if least = most then Text.ofNat least else Text.ofNat least ++ " to " ++ Text.ofNat most

/-- The message. -/
def message : Violation → Text
  | .tooManyNodes _ limit =>
    "Template has more expression nodes than allowed (limit: " ++ limit.text ++ ")."
  | .tooDeep _ limit => "Expression exceeds maximum allowed depth (limit: " ++ limit.text ++ ")."
  | .unsupported op =>
    "Operator " ++ op.name ++ " ('" ++ op.symbol ++
      "') is not implemented and fails at render time."
  | .functionNotAllowed name => "Function \"" ++ name ++ "\" is not allowed in this template."
  | .functionForbidden name => "Function \"" ++ name ++ "\" is forbidden in this template."
  | .unknownFunction name _ => "Function \"" ++ name ++ "\" is not registered."
  | .arity name given least most =>
    "Function \"" ++ name ++ "\" expects " ++ arityText least most ++ " argument(s), got " ++
      Text.ofNat given ++ "."
  | .sourceNotAllowed kind => "Data source \"" ++ kind ++ "\" is not allowed in this template."
  | .sourceForbidden kind => "Data source \"" ++ kind ++ "\" is forbidden in this template."
  | .malformed fault => fault.message

/-- The hint. -/
def hint? : Violation → Option Text
  | .tooDeep .. => some "Split the logic across several expressions or nodes."
  | .unknownFunction _ false => some "The template was parsed without a function registry."
  | .malformed fault => if fault.isLimit then none else fault.hint?
  | _ => none

/-- The particulars, by name. -/
def details : Violation → Table Detail
  | .tooManyNodes count limit => [("nodeCount", .quantity count), ("maxNodeCount", .quantity limit)]
  | .tooDeep depth limit => [("depth", .quantity depth), ("maxAstDepth", .quantity limit)]
  | .unsupported op => [("operator", .text op.symbol)]
  | .functionNotAllowed name | .functionForbidden name | .unknownFunction name _ =>
    [("function", .text name)]
  | .arity name given least most =>
    [("function", .text name), ("argCount", .quantity given), ("min", .quantity least),
      ("max", .quantity ((most.map fun n => (n : Quantity)).getD .infinite))]
  | .sourceNotAllowed kind | .sourceForbidden kind => [("dataSource", .text kind)]
  | .malformed _ => []

end Violation

/-- Where an issue lies. -/
structure Site where
  index : Quantity
  length : Nat
  line : Nat
  column : Quantity

/-- A violation and where it lies. -/
structure Issue where
  violation : Violation
  site : Option Site

namespace Site

/-- The site of an index in a source. -/
def of (source : Text) (index : Quantity) (length : Nat) : Site :=
  let place := Place.ofIndex source index
  ⟨index, length, place.line.number, place.column⟩

end Site

namespace Issue

/-- A violation at a part of a source. -/
def ofSpan (source : Text) (span : Span) (violation : Violation) : Issue :=
  ⟨violation, some (.of source span.start (Nat.max 1 span.length))⟩

/-- Errors come before warnings, then the offset counts, then the code. -/
def le (a b : Issue) : Bool :=
  let index (i : Issue) : Quantity := (i.site.map Site.index).getD (.whole 0)
  if a.violation.severity ≠ b.violation.severity then a.violation.severity = .error
  else if (index a).lt (index b) then true
  else if (index b).lt (index a) then false
  else a.violation.code.le b.violation.code

end Issue

end Stencil
