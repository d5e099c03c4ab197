import Stencil.Dependencies
import Stencil.Expr.Traversal

/-!
# Analysis

Facts about an expression that a traversal collects: how large and deep it is, and which references,
functions and operators occur in it.
-/

namespace Stencil

/-- What an expression is made of. References are listed in the order in which they first occur,
functions and operators by name. -/
structure Analysis where
  nodes : Nat := 0
  depth : Nat := 0
  references : List Text := []
  functions : List Text := []
  operators : List Text := []
deriving DecidableEq

namespace Analysis

/-- Notes a node at a depth. -/
def note (e : Expr) (depth : Nat) (a : Analysis) : Analysis :=
  let a := { a with nodes := a.nodes + 1, depth := Nat.max a.depth depth }
  match e with
  | .access _ source path => { a with references := adjoin a.references (source.reference path) }
  | .call _ name _ => { a with functions := adjoin a.functions name }
  | .pipeline _ _ stages =>
    { a with functions := stages.foldl (fun fs stage => adjoin fs stage.name) a.functions }
  | .binary _ op _ _ => { a with operators := adjoin a.operators op.symbol }
  | .unary _ op _ => { a with operators := adjoin a.operators op.symbol }
  | _ => a

/-- The analysis with its names in order. -/
def sorted (a : Analysis) : Analysis :=
  { a with
    functions := a.functions.mergeSort Text.le
    operators := a.operators.mergeSort Text.le }

end Analysis

/-- The analysis of an expression. -/
def Expr.analyze (e : Expr) : Analysis := (e.traverse (.noting Analysis.note) {}).sorted

end Stencil
