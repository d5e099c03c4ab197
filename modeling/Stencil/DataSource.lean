import Stencil.Text.Basic

/-!
# Data sources

The sources of data that an expression can refer to, and the text of a reference: `$input.user`,
`$node('id').status`, `$env.NAME`.
-/

namespace Stencil

/-- A source of data. -/
inductive DataSource where
  | input
  | node (id : Text)
  | system
  | execution
  | environment
  | workflow
deriving DecidableEq

namespace DataSource

/-- The kind of the source. -/
def kind : DataSource → Text
  | .input => "input"
  | .node _ => "node"
  | .system => "system"
  | .execution => "execution"
  | .environment => "environment"
  | .workflow => "workflow"

/-- How a reference to the whole source is written. -/
def label : DataSource → Text
  | .input => "$input"
  | .node id => "$node('" ++ id ++ "')"
  | .system => "$system"
  | .execution => "$execution"
  | .environment => "$env"
  | .workflow => "$workflow"

/-- The label of a source followed by a path. -/
def pathLabel (source : DataSource) (path : Text) : Text := source.label ++ "." ++ path

/-- How a reference is written; the empty path adds nothing. -/
def reference (source : DataSource) (path : Text) : Text :=
  if path.isEmpty then source.label else source.pathLabel path

end DataSource

end Stencil
