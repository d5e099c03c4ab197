import Stencil.Source.Place
import Stencil.Text.Blank

/-!
# Snippets

A snippet shows one line of a source with carets under a part of it and a label after them.
-/

namespace Stencil

/-- A snippet and the place it points at. -/
structure Snippet where
  place : Place
  text : Text

namespace Snippet

/-- The column of the first caret, moved into the line. -/
def caretColumn (place : Place) : Quantity :=
  (place.column.max (.whole 1)).min ((place.line.text.length : Quantity).max (.whole 1))

/-- How many carets: as many as the part is long, at least one, and none past the line. -/
def carets (place : Place) (length : Quantity) : Quantity :=
  let left := ((place.line.text.length : Quantity).sub (caretColumn place)).add (.whole 1)
  (Quantity.whole 1).max (length.min left)

/-- The line of an index, carets under `length` units from there, and the label unless it is
blank. -/
def build (source : Text) (index length : Quantity) (label : Text) : Snippet :=
  let place := Place.ofIndex source index
  let margin : Text := List.replicate ((caretColumn place).sub (.whole 1)).times ' '
  let marks : Text := List.replicate (carets place length).times '^'
  let suffix : Text := if label.trim.isEmpty then [] else " --- " ++ label
  ⟨place, place.line.text ++ "\n" ++ margin ++ marks ++ suffix⟩

end Snippet

end Stencil
