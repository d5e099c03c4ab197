import Stencil.Token.Basic

/-!
# Operators

The operators of expressions, how they are written and named, and how tightly they bind.
-/

namespace Stencil

/-- Operators with two operands. -/
inductive BinaryOp where
  | add
  | subtract
  | multiply
  | divide
  | modulo
  | equal
  | notEqual
  | less
  | lessEqual
  | greater
  | greaterEqual
  | and
  | or
  | contains
  | startsWith
  | endsWith
deriving DecidableEq

/-- Operators with one operand. -/
inductive UnaryOp where
  | not
  | negate
deriving DecidableEq

namespace BinaryOp

/-- How the operator is written. -/
def symbol : BinaryOp → Text
  | .add => "+"
  | .subtract => "-"
  | .multiply => "*"
  | .divide => "/"
  | .modulo => "%"
  | .equal => "=="
  | .notEqual => "!="
  | .less => "<"
  | .lessEqual => "<="
  | .greater => ">"
  | .greaterEqual => ">="
  | .and => "&&"
  | .or => "||"
  | .contains => "contains"
  | .startsWith => "startsWith"
  | .endsWith => "endsWith"

/-- What messages call the operator. -/
def name : BinaryOp → Text
  | .add => "Add"
  | .subtract => "Subtract"
  | .multiply => "Multiply"
  | .divide => "Divide"
  | .modulo => "Modulo"
  | .equal => "Equal"
  | .notEqual => "NotEqual"
  | .less => "LessThan"
  | .lessEqual => "LessEqual"
  | .greater => "GreaterThan"
  | .greaterEqual => "GreaterEqual"
  | .and => "And"
  | .or => "Or"
  | .contains => "Contains"
  | .startsWith => "StartsWith"
  | .endsWith => "EndsWith"

/-- Whether the operator can be evaluated; the others are only parsed. -/
def isSupported : BinaryOp → Bool
  | .modulo | .lessEqual | .greater | .greaterEqual | .contains | .startsWith | .endsWith => false
  | _ => true

/-- How many levels of binding there are. -/
def levels : Nat := 6

/-- How tightly the operator binds, from 0. All operators associate to the left. -/
def level : BinaryOp → Nat
  | .or => 0
  | .and => 1
  | .equal | .notEqual => 2
  | .less | .lessEqual | .greater | .greaterEqual | .contains | .startsWith | .endsWith => 3
  | .add | .subtract => 4
  | .multiply | .divide | .modulo => 5

/-- The operator that a sign is. -/
def ofSign? : Sign → Option BinaryOp
  | .and => some .and
  | .or => some .or
  | .equal => some .equal
  | .notEqual => some .notEqual
  | .atMost => some .lessEqual
  | .atLeast => some .greaterEqual
  | .plus => some .add
  | .minus => some .subtract
  | .times => some .multiply
  | .over => some .divide
  | .percent => some .modulo
  | .less => some .less
  | .greater => some .greater
  | .bang | .bar => none

/-- The operator that a token is between two operands. -/
def ofLexeme? : Lexeme → Option BinaryOp
  | .sign s => ofSign? s
  | .name n =>
    if n = ("contains" : Text) then some .contains
    else if n = ("startsWith" : Text) then some .startsWith
    else if n = ("endsWith" : Text) then some .endsWith
    else none
  | _ => none

end BinaryOp

namespace UnaryOp

/-- How the operator is written. -/
def symbol : UnaryOp → Text
  | .not => "!"
  | .negate => "-"

/-- The operator that a token is before an operand. -/
def ofLexeme? : Lexeme → Option UnaryOp
  | .sign .bang => some .not
  | .sign .minus => some .negate
  | _ => none

end UnaryOp

end Stencil
