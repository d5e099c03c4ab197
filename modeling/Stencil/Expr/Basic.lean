import Stencil.Expr.Operator
import Stencil.Value.Basic

/-!
# Expressions

Expression trees, each node with the part of the source it was read from. Parentheses leave no node,
so a span may begin and end inside of them.
-/

namespace Stencil

mutual
/-- An expression. -/
inductive Expr where
  /-- A literal, with its text in the source. -/
  | literal (span : Span) (value : Value) (raw : Text)
  /-- A reference to data. -/
  | access (span : Span) (source : DataSource) (path : Text)
  /-- A call of a registered function. -/
  | call (span : Span) (name : Text) (args : List Expr)
  /-- An input that is passed through stages. -/
  | pipeline (span : Span) (input : Expr) (stages : List Stage)
  | binary (span : Span) (op : BinaryOp) (left right : Expr)
  | unary (span : Span) (op : UnaryOp) (operand : Expr)
  | ternary (span : Span) (condition consequent alternate : Expr)
  /-- The call form of a condition; without an alternate it yields null. -/
  | conditional (span : Span) (condition consequent : Expr) (alternate : Option Expr)
/-- A stage of a pipeline: a function that takes the running value before its own arguments. -/
inductive Stage where
  | mk (span : Span) (name : Text) (args : List Expr)
end

/-- The forms of expressions. -/
inductive Form where
  | literal
  | access
  | call
  | pipeline
  | binary
  | unary
  | ternary
  | conditional
deriving DecidableEq

/-- The name of a form. -/
def Form.name : Form → Text
  | .literal => "Literal"
  | .access => "DataAccess"
  | .call => "FunctionCall"
  | .pipeline => "Pipeline"
  | .binary => "BinaryOp"
  | .unary => "UnaryOp"
  | .ternary => "Ternary"
  | .conditional => "IfFunction"

namespace Stage

/-- The part of the source the stage was read from. -/
def span : Stage → Span
  | .mk span _ _ => span

/-- The function of the stage. -/
def name : Stage → Text
  | .mk _ name _ => name

/-- The arguments after the running value. -/
def args : Stage → List Expr
  | .mk _ _ args => args

end Stage

namespace Expr

/-- The form of an expression. -/
def form : Expr → Form
  | .literal .. => .literal
  | .access .. => .access
  | .call .. => .call
  | .pipeline .. => .pipeline
  | .binary .. => .binary
  | .unary .. => .unary
  | .ternary .. => .ternary
  | .conditional .. => .conditional

/-- The part of the source the expression was read from. -/
def span : Expr → Span
  | .literal span .. | .access span .. | .call span .. | .pipeline span .. | .binary span ..
  | .unary span .. | .ternary span .. | .conditional span .. => span

/-- The direct parts of an expression in the order of their source. The arguments of stages follow
the input of their pipeline. -/
def children : Expr → List Expr
  | .literal .. | .access .. => []
  | .call _ _ args => args
  | .pipeline _ input stages => input :: stages.flatMap Stage.args
  | .binary _ _ left right => [left, right]
  | .unary _ _ operand => [operand]
  | .ternary _ condition consequent alternate => [condition, consequent, alternate]
  | .conditional _ condition consequent alternate => condition :: consequent :: alternate.toList

mutual
/-- How many nodes an expression has. -/
def size : Expr → Nat
  | .literal .. | .access .. => 1
  | .call _ _ args => 1 + sizeAll args
  | .pipeline _ input stages => 1 + input.size + sizeStages stages
  | .binary _ _ left right => 1 + left.size + right.size
  | .unary _ _ operand => 1 + operand.size
  | .ternary _ condition consequent alternate =>
    1 + condition.size + consequent.size + alternate.size
  | .conditional _ condition consequent none => 1 + condition.size + consequent.size
  | .conditional _ condition consequent (some alternate) =>
    1 + condition.size + consequent.size + alternate.size
/-- How many nodes some expressions have. -/
def sizeAll : List Expr → Nat
  | [] => 0
  | e :: rest => e.size + sizeAll rest
/-- How many nodes the arguments of some stages have. -/
def sizeStages : List Stage → Nat
  | [] => 0
  | .mk _ _ args :: rest => sizeAll args + sizeStages rest
end

/-- Whether the expression is a literal. -/
def isLiteral (e : Expr) : Bool := e.form == .literal

/-- Whether the expression is a reference and nothing else. -/
def isAccess (e : Expr) : Bool := e.form == .access

end Expr

end Stencil
