import Stencil.Context
import Stencil.Expr.Basic
import Stencil.Registry.Basic

/-!
# Evaluation faults

Why an expression has no value. A fault that a registered function reports with a diagnostic of its
own is passed on as it is; every other fault is of the evaluation itself.
-/

namespace Stencil

/-- Why an expression has no value. -/
inductive EvalFault where
  /-- The operations allowed were used up at a node. -/
  | exhausted (offset : Nat)
  /-- A reference does not resolve. -/
  | unresolved (miss : Miss)
  /-- A function is not registered. -/
  | unknownFunction (name : Text) (span : Span)
  /-- Arguments do not fit the signature of their function. -/
  | arguments (name : Text) (fault : BindFault) (span : Span)
  /-- A value cannot be used as an operator or a rendering needs it. -/
  | value (fault : ValueFault)
  /-- An operator that is parsed but not evaluated. -/
  | unsupported (op : BinaryOp) (span : Span)
  /-- A division by zero, at its divisor. -/
  | divisionByZero (span : Span)
  /-- A function reports a diagnostic. -/
  | reported (d : Diagnostic)
  /-- A function fails in another way, with these arguments. -/
  | failed (name : Text) (failure : Failure) (args : List Value) (span : Span)

namespace EvalFault

/-- Whether the evaluation itself raised the fault, and not a registered function. -/
def isOwn : EvalFault → Bool
  | .reported _ => false
  | _ => true

/-- The offset of the fault, where it has one. -/
def offset? : EvalFault → Option Nat
  | .exhausted offset => some offset
  | .unknownFunction _ span | .arguments _ _ span | .unsupported _ span | .divisionByZero span
  | .failed _ _ _ span => some span.start
  | _ => none

/-- A part of a source that may be unknown. -/
def locate (source : Option Text) (span : Span) : Location :=
  ⟨source, some span.start, some span.length, none⟩

end EvalFault

end Stencil
