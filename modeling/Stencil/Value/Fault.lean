import Stencil.Number.Decimal
import Stencil.Value.Basic

/-!
# Value faults

Why a value could not be used as something else. Each fault names what was given, what was wanted
and, for some, a detail.
-/

namespace Stencil

/-- What a kind of value has no form of. -/
inductive Wanted where
  | integer
  | float
  | string
  | array
  | object
  | length
  | entry
deriving DecidableEq

/-- Why a value could not be used. -/
inductive ValueFault where
  /-- An infinite number, or none, for an integer. -/
  | notFinite (x : Number)
  /-- A number beyond the exact range for an integer. -/
  | outOfRange (x : Number)
  /-- A string that is no word for a truth value. -/
  | notBoolean (t : Text)
  /-- A string that is no integer. -/
  | notInteger (t : Text)
  /-- A string that is no number. -/
  | notNumber (t : Text)
  /-- A value of a kind that has no such form. -/
  | unsuitable (found : Kind) (wanted : Wanted)
  /-- An array key that is no index. -/
  | notIndex
  /-- An index past the end of an array. -/
  | outOfBounds (index size : Nat)

/-- A conversion that failed: what was given, what was wanted, and a detail. -/
structure Conversion where
  source : Text
  target : Text
  detail : Option Text

/-- What a form is called. -/
def Wanted.name : Wanted → Text
  | .integer => "integer"
  | .float => "float"
  | .string => "string"
  | .array => "array"
  | .object => "object"
  | .length => "string, array or object"
  | .entry => "object or array"

end Stencil
