import Stencil.Dependencies
import Stencil.Eval.Basic
import Stencil.Template.Element

/-!
# Templates

A template is a parsed source together with the functions and limits it was parsed with. Rendering
evaluates its expressions in order and puts their texts in the place of the braces; one count of
operations runs through all of them.
-/

namespace Stencil

/-- A parsed template. -/
structure Template where
  source : Text
  elements : List Element
  functions : Registry
  limits : Limits

/-- The expression of an element. -/
def Element.expr? : Element → Option Expr
  | .text _ => none
  | .expression _ expr _ => some expr

namespace Template

/-- Parses a source. Only the limits that count are kept. -/
def parse (source : Text) (functions : Registry) (limits : Limits) :
    Except SyntaxFault Template :=
  let limits := limits.normalize
  (Element.parse source limits.length limits.depth).map fun elements =>
    ⟨source, elements, functions, limits⟩

/-- The expressions in order. -/
def exprs (t : Template) : List Expr := t.elements.filterMap Element.expr?

/-- What the expressions refer to. -/
def dependencies (t : Template) : Dependencies := .of t.exprs

/-- Whether there are no expressions, so that the template renders to its own text. -/
def isStatic (t : Template) : Bool := t.exprs.isEmpty

/-- Whether an expression calls a function. -/
def usesFunction (t : Template) (name : Text) : Bool := t.dependencies.functions.contains name

/-- What the expressions of a template are evaluated with. -/
def scope (t : Template) (context : Context) : Scope :=
  ⟨context, t.functions, t.limits.operations⟩

/-- The text that an element renders to. -/
def renderElement (scope : Scope) : Element → Eval Text
  | .text value => pure value
  | .expression _ expr _ => do
    let v ← expr.eval scope
    Eval.lift .value v.asString

/-- The text that elements render to. -/
def renderAll (scope : Scope) : List Element → Eval Text
  | [] => pure []
  | e :: rest => do
    let head ← renderElement scope e
    let tail ← renderAll scope rest
    return head ++ tail

/-- The text that a template renders to. -/
def render (t : Template) (context : Context) : Eval Text := renderAll (t.scope context) t.elements

/-- The first name that does not satisfy a test. -/
def firstMissing? (names : List Text) (present : Text → Bool) : Option Text :=
  names.find? fun name => !present name

/-- The first source that the template refers to and the context has no data of: the input, then
nodes, then environment variables, whichever branches a rendering would take. -/
def missing? (t : Template) (c : Context) : Option Miss :=
  let d := t.dependencies
  if !d.inputPaths.isEmpty && c.input.isNone then
    some ⟨DataSource.input.label, ["Input data required but not provided"]⟩
  else
    match firstMissing? d.nodes fun id => c.has (.node id) with
    | some id => some ⟨(DataSource.node id).label, c.available⟩
    | none =>
      match firstMissing? d.environment c.environment.has with
      | some name =>
        some ⟨DataSource.environment.pathLabel name, ["Environment variable not set"]⟩
      | none => none

end Template

end Stencil
