import Stencil.Eval.Fault
import Stencil.Limits
import Stencil.Value.Coercion
import Stencil.Value.Equality

/-!
# Evaluation

The value of an expression in a context. Every node counts as one operation when its evaluation
begins; operands and arguments are evaluated from left to right, and of two branches only the one
that is taken. The operations and the calls so far are kept also when evaluation fails.
-/

namespace Stencil

/-- What evaluations have done so far: how many operations, and which functions were called with
which arguments. -/
structure Trace where
  operations : Nat := 0
  calls : List (Text × List Value) := []

/-- What an evaluation goes by. -/
structure Scope where
  context : Context
  functions : Registry
  maxOperations : Option Quantity

/-- An evaluation, which leaves a trace whatever its outcome. -/
abbrev Eval := ExceptT EvalFault (StateM Trace)

namespace Eval

/-- A result that may be a fault. -/
def lift {ε α : Type} (wrap : ε → EvalFault) (result : Except ε α) : Eval α :=
  match result with
  | .ok a => pure a
  | .error e => throw (wrap e)

/-- The outcome of an evaluation, and the trace it leaves. -/
def runFrom {α : Type} (e : Eval α) (trace : Trace) : Except EvalFault α × Trace :=
  StateT.run (ExceptT.run e) trace

end Eval

namespace Scope

/-- Counts an operation at a node, and fails if it is one more than allowed. -/
def count (s : Scope) (offset : Nat) : Eval Unit := do
  modify fun t => { t with operations := t.operations + 1 }
  let trace ← get
  match effective s.maxOperations with
  | some limit =>
    if limit.lt trace.operations then throw (.exhausted offset) else pure ()
  | none => pure ()

/-- The function of a name, called at a part of the source. -/
def function (s : Scope) (name : Text) (span : Span) : Eval Registration :=
  match s.functions.find? name with
  | some f => pure f
  | none => throw (.unknownFunction name span)

end Scope

/-- Binds the arguments of a call, notes it, and runs the function. -/
def Registration.invoke (f : Registration) (args : List Value) (span : Span) : Eval Value := do
  let bound ← Eval.lift (fun fault => .arguments f.name fault span) (f.bind args)
  modify fun t => { t with calls := t.calls ++ [(f.name, bound)] }
  match f.run bound with
  | .ok v => pure v
  | .error (.diagnostic d) => throw (.reported d)
  | .error failure => throw (.failed f.name failure bound span)

/-- The number of an operand. -/
def Value.operand (v : Value) : Eval Number := Eval.lift .value v.asFloat

namespace UnaryOp

/-- The operator applied to a value. -/
def apply (op : UnaryOp) (v : Value) : Eval Value :=
  match op with
  | .not => pure (.bool !v.isTruthy)
  | .negate => do
    let x ← v.operand
    return .float x.neg

end UnaryOp

namespace BinaryOp

/-- The sum of two numbers, or the texts of two values one after the other. -/
def plus (a b : Value) : Eval Value :=
  match a.number?, b.number? with
  | some x, some y => pure (.float (x.add y))
  | _, _ => do
    let s ← Eval.lift .value a.asString
    let t ← Eval.lift .value b.asString
    return .string (s ++ t)

/-- The operator applied to two values. The spans are those of the operation and of its right
operand. -/
def apply (op : BinaryOp) (a b : Value) (span right : Span) : Eval Value :=
  match op with
  | .add => plus a b
  | .subtract => do
    let x ← a.operand
    let y ← b.operand
    return .float (x.sub y)
  | .multiply => do
    let x ← a.operand
    let y ← b.operand
    return .float (x.mul y)
  | .divide => do
    let x ← a.operand
    let y ← b.operand
    if y.isZero then throw (.divisionByZero right)
    return .float (x.div y)
  | .equal => pure (.bool (a.equals b))
  | .notEqual => pure (.bool !a.equals b)
  | .less => do
    let x ← a.operand
    let y ← b.operand
    return .bool (x.lt y)
  | .and => pure (.bool (a.isTruthy && b.isTruthy))
  | .or => pure (.bool (a.isTruthy || b.isTruthy))
  | .modulo | .lessEqual | .greater | .greaterEqual | .contains | .startsWith | .endsWith =>
    throw (.unsupported op span)

end BinaryOp

namespace Expr

mutual
/-- The value of an expression. -/
def eval (s : Scope) : Expr → Eval Value
  | .literal span value _ => do
    s.count span.start
    return value
  | .access span source path => do
    s.count span.start
    Eval.lift .unresolved (s.context.resolve source path)
  | .call span name args => do
    s.count span.start
    let f ← s.function name span
    let values ← evalAll s args
    f.invoke values span
  | .pipeline span input stages => do
    s.count span.start
    let v ← eval s input
    evalStages s v stages
  | .binary span op left right => do
    s.count span.start
    let a ← eval s left
    let b ← eval s right
    op.apply a b span right.span
  | .unary span op operand => do
    s.count span.start
    let v ← eval s operand
    op.apply v
  | .ternary span condition consequent alternate => do
    s.count span.start
    let c ← eval s condition
    if c.isTruthy then eval s consequent else eval s alternate
  | .conditional span condition consequent none => do
    s.count span.start
    let c ← eval s condition
    if c.isTruthy then eval s consequent else return .null
  | .conditional span condition consequent (some alternate) => do
    s.count span.start
    let c ← eval s condition
    if c.isTruthy then eval s consequent else eval s alternate
/-- The values of expressions in order. -/
def evalAll (s : Scope) : List Expr → Eval (List Value)
  | [] => return []
  | e :: rest => do
    let v ← eval s e
    let more ← evalAll s rest
    return v :: more
/-- The value that comes out of stages. The function of a stage is looked up before its arguments
are evaluated. -/
def evalStages (s : Scope) (v : Value) : List Stage → Eval Value
  | [] => return v
  | .mk span name args :: rest => do
    let f ← s.function name span
    let extra ← evalAll s args
    let v ← f.invoke (v :: extra) span
    evalStages s v rest
end

end Expr

end Stencil
