import Stencil.Quantity

/-!
# Places in a source

The line and column of an offset. A line ends at a line feed, a carriage return, or the pair of
both, which counts once; the line of an offset is the first whose break does not begin before it.
-/

namespace Stencil

/-- A line of a source: its number from 1, the offset where it starts, and its text without the
break at its end. -/
structure Line where
  number : Nat
  start : Nat
  text : Text
deriving DecidableEq

/-- The lines of a text, each with the width of the break that ends it; the last line has none. -/
def Text.lines : Text → List (Text × Nat)
  | [] => [([], 0)]
  | [u] => if u = '\n' ∨ u = '\r' then [([], 1), ([], 0)] else [([u], 0)]
  | u :: v :: rest =>
    if u = '\r' ∧ v = '\n' then ([], 2) :: lines rest
    else if u = '\n' ∨ u = '\r' then ([], 1) :: lines (v :: rest)
    else
      match lines (v :: rest) with
      | [] => [([u], 0)]
      | (line, width) :: more => (u :: line, width) :: more

namespace Line

/-- Passes over the lines whose break begins before the offset. -/
def seek (offset : Nat) (number start : Nat) : List (Text × Nat) → Line
  | [] => ⟨number, start, []⟩
  | [(text, _)] => ⟨number, start, text⟩
  | (text, width) :: rest =>
    if offset ≤ start + text.length then ⟨number, start, text⟩
    else seek offset (number + 1) (start + text.length + width) rest

/-- The line of an offset. -/
def ofOffset (source : Text) (offset : Nat) : Line := seek offset 1 0 source.lines

end Line

/-- A place in a source: its line, and its column counted from 1. An offset between the two halves
of a line break belongs to the line after it and has the column 0. -/
structure Place where
  line : Line
  column : Quantity

namespace Place

/-- An index moved into the source: at the start if it is not a number or negative, at the last
unit if it is too large. -/
def clamp (source : Text) (index : Quantity) : Quantity :=
  if index.isNaN then .whole 0 else (index.max (.whole 0)).min (.whole (source.length - 1 : Nat))

/-- The place of an index. -/
def ofIndex (source : Text) (index : Quantity) : Place :=
  let index := clamp source index
  let line := Line.ofOffset source index.ceiling
  ⟨line, (index.sub line.start).add (.whole 1)⟩

end Place

end Stencil
