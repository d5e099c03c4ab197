import Stencil.Quantity
import Stencil.Text.Quoted
import Stencil.Value.Basic

/-!
# Layout of values

The form of a value on several lines, for people to read: one item or entry a line, indented by its
depth. Deep containers are only counted, long ones and long strings are cut. A float always shows
that it is one.
-/

namespace Stencil

/-- How values are laid out. -/
structure Layout where
  /-- How many levels of containers are opened. -/
  maxDepth : Quantity
  /-- How many items of an array are shown. -/
  maxItems : Quantity
  /-- How many entries of an object are shown. -/
  maxEntries : Quantity
  /-- How many units of a string are shown. -/
  maxString : Quantity
  /-- What a level of depth is indented by. -/
  indent : Text

namespace Layout

/-- Three levels, ten items or entries, eighty units, two spaces. -/
def standard : Layout := ⟨.whole 3, .whole 10, .whole 10, .whole 80, "  "⟩

/-- The indentation of a depth. -/
def margin (l : Layout) (depth : Nat) : Text := (List.replicate depth l.indent).flatten

/-- A string in quotes, cut with an ellipsis if it is too long. -/
def string (l : Layout) (t : Text) : Text :=
  if l.maxString.lt t.length then Text.quote (t.take (l.maxString.cut t.length) ++ "…")
  else t.quote

/-- The line that says how many of `size` parts are not shown, if any are. -/
def remainder (l : Layout) (depth size : Nat) (shown : Quantity) (unit : Text) : List Text :=
  if shown.lt size then
    [l.margin (depth + 1) ++ "… " ++ ((size : Quantity).sub shown).text ++ " more " ++ unit]
  else []

/-- Lines between brackets, the closing one indented by a depth. -/
def block (l : Layout) (depth : Nat) (opening closing : Text) (lines : List Text) : Text :=
  opening ++ "\n" ++ Text.join ",\n" lines ++ "\n" ++ l.margin depth ++ closing

mutual
/-- The layout of a value at a depth. -/
def value (l : Layout) (depth : Nat) : Value → Text
  | .null => "null"
  | .bool b => if b then "true" else "false"
  | .integer n => .ofInt n.toInt
  | .float x => x.textWithPlace
  | .string t => l.string t
  | .array items =>
    if items.isEmpty then "[]"
    else if l.maxDepth.le depth then "[Array(" ++ Text.ofNat items.length ++ ")]"
    else
      let shown := (items.length : Quantity).min l.maxItems
      l.block depth "[" "]"
        (itemLines l depth shown.ceiling items ++ l.remainder depth items.length shown "item(s)")
  | .object entries =>
    if entries.isEmpty then "\x7b\x7d"
    else if l.maxDepth.le depth then "\x7b… " ++ Text.ofNat entries.length ++ " key(s)\x7d"
    else
      let shown := (entries.length : Quantity).min l.maxEntries
      l.block depth "\x7b" "\x7d"
        (entryLines l depth shown.ceiling entries ++
          l.remainder depth entries.length shown "key(s)")
/-- The lines of the first `count` items. -/
def itemLines (l : Layout) (depth : Nat) : Nat → List Value → List Text
  | 0, _ | _, [] => []
  | count + 1, v :: rest =>
    (l.margin (depth + 1) ++ value l (depth + 1) v) :: itemLines l depth count rest
/-- The lines of the first `count` entries. -/
def entryLines (l : Layout) (depth : Nat) : Nat → List (Text × Value) → List Text
  | 0, _ | _, [] => []
  | count + 1, (key, v) :: rest =>
    (l.margin (depth + 1) ++ key.quote ++ ": " ++ value l (depth + 1) v) ::
      entryLines l depth count rest
end

end Layout

/-- The layout of a value from the margin on. -/
def Value.layout (v : Value) (l : Layout) : Text := l.value 0 v

end Stencil
