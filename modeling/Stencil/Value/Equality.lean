import Stencil.Value.Basic

/-!
# Equality of values

Structural equality that tells kinds apart: an integer never equals a float. Floats compare as
numbers, and objects regardless of the order of their entries.
-/

namespace Stencil.Value

mutual
/-- Equality of two values. -/
def equals : Value → Value → Bool
  | .null, .null => true
  | .bool a, .bool b => a == b
  | .integer m, .integer n => m == n
  | .float x, .float y => x.eq y
  | .string s, .string t => s == t
  | .array as, .array bs => equalItems as bs
  | .object as, .object bs => as.length == bs.length && equalEntries as bs
  | _, _ => false
/-- Equality of two runs of items, place by place. -/
def equalItems : List Value → List Value → Bool
  | [], [] => true
  | a :: as, b :: bs => a.equals b && equalItems as bs
  | _, _ => false
/-- Every entry has an equal one under its key in the other table. -/
def equalEntries : List (Text × Value) → Table Value → Bool
  | [], _ => true
  | (key, a) :: rest, bs =>
    (match bs.find? key with
      | some b => a.equals b
      | none => false) && equalEntries rest bs
end

end Stencil.Value
