import Stencil.Quantity

/-!
# Limits

The limits that a caller may set on a template. A negative limit, or one that is not a number,
counts as none.
-/

namespace Stencil

/-- The limit that counts. -/
def effective (limit : Option Quantity) : Option Quantity :=
  limit.filter fun q => (Quantity.whole 0).le q

/-- Limits of a template: its length in code units, the depth of its expressions, and the nodes that
one rendering may evaluate. -/
structure Limits where
  length : Option Quantity := none
  depth : Option Quantity := none
  operations : Option Quantity := none

/-- Only the limits that count. -/
def Limits.normalize (l : Limits) : Limits :=
  ⟨effective l.length, effective l.depth, effective l.operations⟩

end Stencil
