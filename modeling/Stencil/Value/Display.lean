import Stencil.Number.Decimal
import Stencil.Text.Quoted
import Stencil.Value.Basic

/-!
# Display on one line

The form of a value in messages: `[1, "a"]`, `\x7bid: 7\x7d` with its keys unquoted.
-/

namespace Stencil.Value

mutual
/-- The text of a value on one line. -/
def display : Value → Text
  | .null => "null"
  | .bool b => if b then "true" else "false"
  | .integer n => .ofInt n.toInt
  | .float x => x.text
  | .string t => t.quote
  | .array items => "[" ++ Text.join ", " (displayItems items) ++ "]"
  | .object entries => "\x7b" ++ Text.join ", " (displayEntries entries) ++ "\x7d"
/-- The texts of items. -/
def displayItems : List Value → List Text
  | [] => []
  | v :: rest => v.display :: displayItems rest
/-- The texts of entries. -/
def displayEntries : List (Text × Value) → List Text
  | [] => []
  | (key, v) :: rest => (key ++ ": " ++ v.display) :: displayEntries rest
end

end Stencil.Value
