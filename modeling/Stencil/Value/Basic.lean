import Stencil.Number.Basic
import Stencil.Table

/-!
# Values

The data that expressions compute with. Integers lie in the range where binary64 tells neighbours
apart and are kept distinct from floats; objects keep the order in which their keys first came.
-/

namespace Stencil

/-- A value of the expression language. -/
inductive Value where
  | null
  | bool (value : Bool)
  | integer (value : Whole)
  | float (value : Number)
  | string (value : Text)
  | array (items : List Value)
  | object (entries : List (Text × Value))

/-- The kinds of values. -/
inductive Kind where
  | null
  | boolean
  | integer
  | float
  | string
  | array
  | object
deriving DecidableEq

/-- The name of a kind, as messages and signatures use it. -/
def Kind.name : Kind → Text
  | .null => "null"
  | .boolean => "boolean"
  | .integer => "integer"
  | .float => "float"
  | .string => "string"
  | .array => "array"
  | .object => "object"

namespace Value

/-- The kind of a value. -/
def kind : Value → Kind
  | .null => .null
  | .bool _ => .boolean
  | .integer _ => .integer
  | .float _ => .float
  | .string _ => .string
  | .array _ => .array
  | .object _ => .object

/-- The number of an integer or a float. -/
def number? : Value → Option Number
  | .integer n => some n.toNumber
  | .float x => some x
  | _ => none

/-- Whether the value is an integer or a float. -/
def isNumber (v : Value) : Bool := v.number?.isSome

/-- Null, and strings, arrays and objects without content. -/
def isEmpty : Value → Bool
  | .null => true
  | .string t => t.isEmpty
  | .array items => items.isEmpty
  | .object entries => entries.isEmpty
  | _ => false

/-- What conditions take for true: all but null, false, zero, what is not a number, and the empty
strings, arrays and objects. -/
def isTruthy : Value → Bool
  | .null => false
  | .bool b => b
  | .integer n => n.toInt != 0
  | .float x => !x.isZero && x != .nan
  | .string t => !t.isEmpty
  | .array items => !items.isEmpty
  | .object entries => !entries.isEmpty

mutual
/-- No object at any depth has a key twice. -/
def WellFormed : Value → Prop
  | .array items => WellFormedItems items
  | .object entries => Table.Unique entries ∧ WellFormedEntries entries
  | _ => True
/-- Every item is well formed. -/
def WellFormedItems : List Value → Prop
  | [] => True
  | v :: rest => v.WellFormed ∧ WellFormedItems rest
/-- Every entry is well formed. -/
def WellFormedEntries : List (Text × Value) → Prop
  | [] => True
  | (_, v) :: rest => v.WellFormed ∧ WellFormedEntries rest
end

end Value

end Stencil
