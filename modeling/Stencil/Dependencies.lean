import Stencil.Expr.Basic

/-!
# Dependencies

The data sources and functions that expressions refer to, in any of their branches. Each is listed
once, in the order in which it first occurs.
-/

namespace Stencil

/-- The list with an entry at its end, unless it is there already. -/
def adjoin {α : Type} [BEq α] (xs : List α) (x : α) : List α :=
  if xs.contains x then xs else xs ++ [x]

/-- What expressions refer to. -/
structure Dependencies where
  inputPaths : List Text := []
  nodes : List Text := []
  environment : List Text := []
  functions : List Text := []
  system : Bool := false
  execution : Bool := false
  workflow : Bool := false
deriving DecidableEq

namespace Dependencies

/-- Adds a reference. Of the input the path counts, of nodes their name. -/
def addReference (d : Dependencies) (source : DataSource) (path : Text) : Dependencies :=
  match source with
  | .input => { d with inputPaths := adjoin d.inputPaths path }
  | .node id => { d with nodes := adjoin d.nodes id }
  | .environment => { d with environment := adjoin d.environment path }
  | .system => { d with system := true }
  | .execution => { d with execution := true }
  | .workflow => { d with workflow := true }

/-- Adds a function. -/
def addFunction (d : Dependencies) (name : Text) : Dependencies :=
  { d with functions := adjoin d.functions name }

mutual
/-- Adds all that an expression refers to. -/
def collect (d : Dependencies) : Expr → Dependencies
  | .literal .. => d
  | .access _ source path => d.addReference source path
  | .call _ name args => collectAll (d.addFunction name) args
  | .pipeline _ input stages =>
    let d := stages.foldl (fun d stage => d.addFunction stage.name) d
    collectStages (collect d input) stages
  | .binary _ _ left right => collect (collect d left) right
  | .unary _ _ operand => collect d operand
  | .ternary _ condition consequent alternate =>
    collect (collect (collect d condition) consequent) alternate
  | .conditional _ condition consequent none => collect (collect d condition) consequent
  | .conditional _ condition consequent (some alternate) =>
    collect (collect (collect d condition) consequent) alternate
/-- Adds all that some expressions refer to. -/
def collectAll (d : Dependencies) : List Expr → Dependencies
  | [] => d
  | e :: rest => collectAll (collect d e) rest
/-- Adds all that the arguments of stages refer to. -/
def collectStages (d : Dependencies) : List Stage → Dependencies
  | [] => d
  | .mk _ _ args :: rest => collectStages (collectAll d args) rest
end

/-- What some expressions refer to. -/
def of (exprs : List Expr) : Dependencies := collectAll {} exprs

end Dependencies

end Stencil
