import Stencil.Expr.Analysis
import Stencil.Template.Basic
import Stencil.Text.Quoted

/-!
# Descriptions of templates

An outline of a template with one line for each element.
-/

namespace Stencil

/-- An expression between its braces. -/
def Element.braced (source : Text) : Text := "\x7b\x7b " ++ source ++ " \x7d\x7d"

/-- A heading and some names, or nothing if there are none. -/
def named (heading : Text) (names : List Text) : Text :=
  if names.isEmpty then [] else "  " ++ heading ++ ": " ++ Text.join ", " names

/-- The line of an element. -/
def Element.description : Element → Text
  | .text value => "text       " ++ value.quote
  | .expression source expr _ =>
    let a := expr.analyze
    "expression " ++ braced source ++ named "refs" a.references ++ named "fns" a.functions

/-- The lines of all elements. -/
def Template.description (t : Template) : Text :=
  Text.join "\n" (t.elements.map Element.description)

end Stencil
